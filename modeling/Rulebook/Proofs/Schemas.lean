import Rulebook.Call.Schema
import Rulebook.Proofs.Redrafting
import Rulebook.Proofs.Resolution

namespace Rulebook.Call

open Ruleset

/-- The schema describes the value. A keyword that is left out asks for nothing, and the keywords
for members ask nothing of a value that is no object. Members of an enumeration are compared
loosely. -/
@[mk_iff]
inductive Satisfies : Json → Json → Prop
  | intro {schema v : Json}
    (type : ∀ name, schema.get? "type" = some (.str name) → v.typeName = name)
    (enum : ∀ members, schema.get? "enum" = some (.arr members) →
      ∃ member ∈ members, State.looselyEqual member v = true)
    (required : ∀ names, schema.get? "required" = some (.arr names) →
      ∀ fields, v = .obj fields → ∀ n, .str n ∈ names → n ∈ Fields.names fields)
    (properties : ∀ subs, schema.get? "properties" = some (.obj subs) →
      ∀ fields, v = .obj fields → ∀ n sub w, Fields.get? subs n = some sub →
        Fields.get? fields n = some w → Satisfies sub w)
    (closed : schema.get? "additionalProperties" = some (.bool false) →
      ∀ fields, v = .obj fields → ∀ n ∈ Fields.names fields,
        ∃ subs, schema.get? "properties" = some (.obj subs) ∧ n ∈ Fields.names subs) :
    Satisfies schema v

variable {p : Parameter} {ps : List Parameter} {f : Function} {args bound : Fields Json} {v : Json}

theorem accepts_iff {t : ParamType} : t.accepts v = true ↔ v.typeName = t.name := by
  cases t <;> cases v <;> simp [ParamType.accepts, Json.typeName, ParamType.name]

theorem get?_append (fs gs : Fields Json) (n : String) :
    Fields.get? (fs ++ gs) n = (Fields.get? fs n).or (Fields.get? gs n) := List.lookup_append

theorem get?_optional {α : Type} (name : String) (encode : α → Json) (a : Option α) (n : String) :
    Fields.get? (Ruleset.optional name encode a) n = if n = name then a.map encode else none := by
  cases a with
  | none => simp [Ruleset.optional, Fields.get?]
  | some a => exact Fields.get?_cons n name (encode a) []

theorem get?_propertyOf (p : Parameter) (keyword : String) : (propertyOf p).get? keyword =
    if keyword = "type" then some (.str p.type.name)
    else if keyword = "description" then
      if p.description.isEmpty then none else some (.str p.description)
    else if keyword = "enum" then p.allowed.map .arr
    else if keyword = "default" then p.default
    else none := by
  have hdescription : (if p.description.isEmpty then [] else
      [("description", Json.str p.description)]) = Ruleset.optional "description" .str
        (if p.description.isEmpty then none else some p.description) := by
    cases p.description.isEmpty <;> rfl
  have htype : [("type", Json.str p.type.name)] =
      Ruleset.optional "type" .str (some p.type.name) := rfl
  rw [propertyOf, hdescription, htype, Json.get?, Fields.get?_ofList]
  · simp only [get?_append, get?_optional]
    by_cases ht : keyword = "type"
    · simp [ht]
    by_cases hd : keyword = "description"
    · cases p.description.isEmpty <;> simp [hd]
    by_cases he : keyword = "enum"
    · simp [he]
    simp [ht, hd, he]
  · cases p.description.isEmpty <;> cases p.allowed <;> cases p.default <;>
      simp [Fields.names, Ruleset.optional]

theorem satisfies_propertyOf : Satisfies (propertyOf p) v ↔ p.type.accepts v = true ∧
    ∀ members ∈ p.allowed, ∃ member ∈ members, State.looselyEqual member v = true := by
  rw [satisfies_iff, accepts_iff]
  simp [get?_propertyOf]

theorem get?_properties (hn : f.parameterNames.Nodup) {n : String} {sub : Json} :
    Fields.get? (Fields.ofList (f.parameters.map fun p => (p.name, propertyOf p))) n = some sub ↔
      ∃ p ∈ f.parameters, p.name = n ∧ propertyOf p = sub := by
  have hnames : Fields.names (f.parameters.map fun p => (p.name, propertyOf p)) =
      f.parameterNames := List.map_map
  rw [Fields.get?_ofList (hnames ▸ hn), Fields.get?_eq_some_iff (hnames ▸ hn)]
  simp

/-- The schema of a function describes arguments under the names of its parameters, the required
ones among them, each of which is described by its parameter's property. -/
theorem satisfies_schema (hn : f.parameterNames.Nodup) :
    Satisfies (Schema.of f).parameters (.obj args) ↔
      (∀ n ∈ args.names, n ∈ f.parameterNames) ∧ ∀ p ∈ f.parameters,
        (p.required = true → p.name ∈ args.names) ∧
          ∀ v, args.get? p.name = some v → Satisfies (propertyOf p) v := by
  have hnames (n : String) : n ∈ Fields.names (Fields.ofList
      (f.parameters.map fun p => (p.name, propertyOf p))) ↔ n ∈ f.parameterNames := by
    simp only [Fields.mem_names, get?_properties hn, Function.parameterNames, List.mem_map]
    constructor
    · rintro ⟨_, p, hp, hpn, -⟩
      exact ⟨p, hp, hpn⟩
    · rintro ⟨p, hp, hpn⟩
      exact ⟨_, p, hp, hpn, rfl⟩
  have hlookup (keyword : String) : (Schema.of f).parameters.get? keyword =
      if keyword = "additionalProperties" then some (.bool false)
      else if keyword = "properties" then
        some (.obj (Fields.ofList (f.parameters.map fun p => (p.name, propertyOf p))))
      else if keyword = "required" then
        some (strings ((f.parameters.filter (·.required)).map (·.name)))
      else if keyword = "type" then some (.str "object")
      else none := by
    simp only [Schema.of, Json.get?, Fields.get?_cons]
    rfl
  have hkeywords : Satisfies (Schema.of f).parameters (.obj args) ↔
      (∀ n, ∀ p ∈ f.parameters, p.required = true → p.name = n → n ∈ args.names) ∧
      (∀ n sub w, ∀ p ∈ f.parameters, p.name = n → propertyOf p = sub →
        args.get? n = some w → Satisfies sub w) ∧
      ∀ n ∈ args.names, n ∈ f.parameterNames := by
    rw [satisfies_iff]
    simp [hlookup, strings, get?_properties hn, hnames, Json.typeName]
  rw [hkeywords]
  constructor
  · rintro ⟨hrequired, hproperties, hclosed⟩
    exact ⟨hclosed, fun p hp => ⟨fun hr => hrequired _ p hp hr rfl,
      fun v => hproperties _ _ v p hp rfl rfl⟩⟩
  · rintro ⟨hclosed, h⟩
    refine ⟨?_, ?_, hclosed⟩
    · rintro _ p hp hr rfl
      exact (h p hp).1 hr
    · rintro _ _ v p hp rfl rfl
      exact (h p hp).2 v

theorem parameter_bind_eq_ok (hnull : args.get? p.name ≠ some .null) :
    Parameter.bind p args = .ok v ↔
      ((p.required = true → p.name ∈ args.names) ∧
        ∀ w, args.get? p.name = some w → Satisfies (propertyOf p) w) ∧
      (args.get? p.name).getD (p.default.getD .null) = v := by
  cases hg : args.get? p.name with
  | none =>
    have hgiven : given? p args = none := by rw [given?, hg]
    rw [Parameter.bind, hgiven]
    cases hr : p.required <;> simp [← Fields.get?_eq_none_iff, hg]
  | some w =>
    have hmem : p.name ∈ args.names := Fields.mem_names.2 ⟨w, hg⟩
    have hgiven : given? p args = some w := by
      have hw : w ≠ .null := fun h => hnull (h ▸ hg)
      rw [given?, hg]
      cases w <;> trivial
    rw [Parameter.bind, hgiven]
    simp only [hmem, implies_true, true_and, Option.some.injEq, forall_eq', satisfies_propertyOf,
      Option.getD_some]
    cases p.type.accepts w with
    | false => simp
    | true =>
      cases p.allowed with
      | none => simp
      | some members =>
        by_cases h : ∃ member ∈ members, State.looselyEqual member w = true <;> simp [h]

theorem faults_eq_nil :
    (bindAll ps args).1 = [] ↔ ∀ p ∈ ps, ∃ v, Parameter.bind p args = .ok v := by
  induction ps using List.reverseRecOn with
  | nil => simp [bindAll]
  | append_singleton ps p ih =>
    rw [bindAll_append, List.forall_mem_append, List.forall_mem_singleton, ← ih]
    cases Parameter.bind p args <;> simp

theorem sorted_bindAll (ps : List Parameter) (args : Fields Json) :
    (bindAll ps args).2.Sorted := by
  induction ps using List.reverseRecOn with
  | nil => exact .nil
  | append_singleton ps p ih =>
    rw [bindAll_append]
    cases Parameter.bind p args with
    | error e => exact ih
    | ok v => exact Fields.sorted_insert ih p.name v

theorem get?_bindAll_eq_some (hn : (ps.map (·.name)).Nodup) {n : String} :
    Fields.get? (bindAll ps args).2 n = some v ↔
      ∃ p ∈ ps, p.name = n ∧ Parameter.bind p args = .ok v := by
  induction ps using List.reverseRecOn with
  | nil => simp [bindAll, Fields.get?]
  | append_singleton ps p ih =>
    rw [List.map_append, List.nodup_append] at hn
    have hp (q : Parameter) (hq : q ∈ ps) : q.name ≠ p.name :=
      hn.2.2 q.name (List.mem_map_of_mem hq) p.name (List.mem_singleton_self _)
    rw [bindAll_append]
    simp only [List.mem_append, List.mem_singleton, or_and_right, exists_or, exists_eq_left,
      ← ih hn.1]
    cases hb : Parameter.bind p args with
    | error e => simp
    | ok w =>
      by_cases h : n = p.name
      · have hnone : Fields.get? (bindAll ps args).2 n ≠ some v := by
          rw [ne_eq, ih hn.1]
          rintro ⟨q, hq, hqn, -⟩
          exact hp q hq (hqn.trans h)
        simp [Fields.get?_insert, h, h ▸ hnone]
      · simp [Fields.get?_insert, h, Ne.symm h]

theorem unknownArguments_eq_nil :
    unknownArguments ps args = [] ↔ ∀ n ∈ args.names, n ∈ ps.map (·.name) := by
  simp [unknownArguments, List.filter_eq_nil_iff]

theorem binding_eq_ok : bind ps args = .ok bound ↔
    ((∀ n ∈ args.names, n ∈ ps.map (·.name)) ∧ ∀ p ∈ ps, ∃ v, Parameter.bind p args = .ok v) ∧
      (bindAll ps args).2 = bound := by
  rw [← unknownArguments_eq_nil, ← faults_eq_nil, ← List.append_eq_nil_iff, ← List.isEmpty_iff]
  simp only [bind]
  split <;> simp_all

theorem get?_of_bind_eq_ok (hn : (ps.map (·.name)).Nodup)
    (hnull : ∀ n, args.get? n ≠ some .null) (h : bind ps args = .ok bound) :
    bound.Sorted ∧ (∀ n, n ∈ bound.names ↔ n ∈ ps.map (·.name)) ∧
      ∀ p ∈ ps, bound.get? p.name = some ((args.get? p.name).getD (p.default.getD .null)) := by
  obtain ⟨⟨-, hall⟩, rfl⟩ := binding_eq_ok.1 h
  have hvalue (p : Parameter) (hp : p ∈ ps) : Fields.get? (bindAll ps args).2 p.name =
      some ((args.get? p.name).getD (p.default.getD .null)) := by
    obtain ⟨v, hv⟩ := hall p hp
    rw [((parameter_bind_eq_ok (hnull _)).1 hv).2]
    exact (get?_bindAll_eq_some hn).2 ⟨p, hp, rfl, hv⟩
  refine ⟨sorted_bindAll ps args, fun n => ?_, hvalue⟩
  rw [Fields.mem_names, List.mem_map]
  constructor
  · rintro ⟨v, hv⟩
    obtain ⟨p, hp, hpn, -⟩ := (get?_bindAll_eq_some hn).1 hv
    exact ⟨p, hp, hpn⟩
  · rintro ⟨p, hp, rfl⟩
    exact ⟨_, hvalue p hp⟩

theorem bindable_iff_satisfies (hn : f.parameterNames.Nodup)
    (hnull : ∀ n, args.get? n ≠ some .null) :
    (∃ bound, bind f.parameters args = .ok bound) ↔
      Satisfies (Schema.of f).parameters (.obj args) := by
  simp only [binding_eq_ok, satisfies_schema hn, parameter_bind_eq_ok (hnull _),
    exists_and_left, exists_eq', and_true]
  rfl

theorem nodup_parameterNames {format : Format} {bytes : ByteArray} {d : Document} {phase : Phase}
    (hload : loadAs format bytes = .ok d) (hf : f ∈ d.functionsOf phase) :
    f.parameterNames.Nodup := by
  have hnames : f.draft.parameterNames = f.parameterNames := List.map_map
  exact hnames ▸ (wellFormed_of_load hload hf).parametersDistinct

/-- The schema of a loaded function describes just the arguments that are bound. They are bound
under the names of its parameters, each to the argument, the default or null. -/
theorem schema_describes_bindable {format : Format} {bytes : ByteArray} {d : Document}
    {phase : Phase} (hload : loadAs format bytes = .ok d) (hf : f ∈ d.functionsOf phase)
    (hnull : ∀ n, args.get? n ≠ some .null) :
    ((∃ bound, bind f.parameters args = .ok bound) ↔
      Satisfies (Schema.of f).parameters (.obj args)) ∧
    ∀ bound, bind f.parameters args = .ok bound →
      bound.Sorted ∧ (∀ n, n ∈ bound.names ↔ n ∈ f.parameterNames) ∧
      ∀ p ∈ f.parameters,
        bound.get? p.name = some ((args.get? p.name).getD (p.default.getD .null)) := by
  have hn := nodup_parameterNames hload hf
  exact ⟨bindable_iff_satisfies hn hnull, fun bound h => get?_of_bind_eq_ok hn hnull h⟩

def marketText : String :=
  "\x7b\"metadata\":\x7b\"id\":\"market\",\"name\":\"Market\",\"version\":\"1\"\x7d,
   \"functionsByPhase\":\x7b\"rest\":[\x7b\"id\":\"buy\",\"name\":\"buy\",
   \"parameters\":[\x7b\"name\":\"item\",\"type\":\"string\",\"required\":true,
   \"enum\":[\"rope\",\"lamp\"]\x7d,
   \x7b\"name\":\"count\",\"type\":\"number\",\"default\":1\x7d]\x7d]\x7d\x7d"

theorem schema_describes_bindable_market : ∃ d f, loadAs .json marketText.toUTF8 = .ok d ∧
    f ∈ d.functionsOf .rest ∧
    Satisfies (Schema.of f).parameters (.obj [("item", .str "rope")]) ∧
    ¬Satisfies (Schema.of f).parameters (.obj [("item", .str "sword")]) ∧
    ∃ bound, bind f.parameters [("item", .str "rope")] = .ok bound ∧
      bound.names = ["count", "item"] := by
  have hmarket : (loadAs .json marketText.toUTF8).toOption.any (fun d =>
      (d.functionsOf .rest).any fun f =>
        (bind f.parameters [("item", .str "rope")]).toOption.any
          (fun bound => bound.names == ["count", "item"]) &&
        !(bind f.parameters [("item", .str "sword")]).isOk) = true := by decide +kernel
  obtain ⟨d, hd, hany⟩ := exists_of_toOption_any hmarket
  obtain ⟨f, hf, h⟩ := List.any_eq_true.1 hany
  rw [Bool.and_eq_true, Bool.not_eq_true', ← Bool.not_eq_true, isOk_iff] at h
  obtain ⟨bound, hbound, hnames⟩ := exists_of_toOption_any h.1
  have hnull (s n : String) : Fields.get? [("item", Json.str s)] n ≠ some .null := by
    rw [Fields.get?_cons]
    split <;> simp [Fields.get?]
  have hrope := schema_describes_bindable hd hf (hnull "rope")
  have hsword := schema_describes_bindable hd hf (hnull "sword")
  exact ⟨d, f, hd, hf, hrope.1.1 ⟨bound, hbound⟩, mt hsword.1.2 h.2, bound, hbound,
    eq_of_beq hnames⟩

end Rulebook.Call
