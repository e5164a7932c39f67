import Rulebook.Proofs.Schemas
import Rulebook.Proofs.WholeFloats

namespace Rulebook.State

theorem looselyEqual_of_same {v w : Json} (h : v.same w = true) : looselyEqual v w = true := by
  cases v with
  | int m =>
    cases w with
    | int n =>
      obtain rfl : m = n := by simpa [Json.same] using h
      exact Decimal.ofInt_beq_self m
    | _ => cases h
  | float x =>
    cases w with
    | float y => exact h
    | _ => cases h
  | _ => exact h

end Rulebook.State

namespace Rulebook.Call

open Ruleset

variable {p : Parameter} {ps : List Parameter} {f : Function} {args args' bound : Fields Json}
variable {v : Json}

structure Passes (p : Parameter) (v : Json) : Prop where
  accepted : p.type.accepts v = true
  listed : ∀ members ∈ p.allowed, ∃ member ∈ members, State.looselyEqual member v = true

theorem Passes.ne_null (h : Passes p v) : v ≠ .null := by
  rintro rfl
  have := h.accepted
  cases ht : p.type <;> rw [ht] at this <;> cases this

/-- What a parameter is bound to: an argument that passes, or the default, or null. -/
inductive Takes (p : Parameter) (args : Fields Json) : Json → Prop
  | given {v : Json} (hg : args.get? p.name = some v) (hv : Passes p v) : Takes p args v
  | default {v : Json} (hg : given? p args = none) (hr : p.required = false)
    (hd : p.default = some v) : Takes p args v
  | null (hg : given? p args = none) (hr : p.required = false) (hd : p.default = none) :
    Takes p args .null

theorem given?_eq_some : given? p args = some v ↔ args.get? p.name = some v ∧ v ≠ .null := by
  unfold given?
  split
  · next h => simp [h]
  · next h =>
    rw [h, Option.some.injEq]
    constructor
    · nofun
    · rintro ⟨rfl, hv⟩
      exact absurd rfl hv
  · next w hw h =>
    rw [h, Option.some.injEq]
    constructor
    · rintro rfl
      exact ⟨rfl, hw⟩
    · exact And.left

theorem bind_absent_iff (hg : given? p args = none) :
    Parameter.bind p args = .ok v ↔ p.required = false ∧ p.default.getD .null = v := by
  rw [Parameter.bind, hg]
  cases p.required <;> simp

theorem bind_given_iff {w : Json} (hg : given? p args = some w) :
    Parameter.bind p args = .ok v ↔ Passes p w ∧ w = v := by
  rw [Parameter.bind, hg]
  constructor
  · intro h
    simp only at h
    split at h
    · cases h
    next ht =>
    have ht : p.type.accepts w = true := by simpa using ht
    split at h
    · next ha =>
      cases h
      exact ⟨⟨ht, by simp [ha]⟩, rfl⟩
    · next members ha =>
      split at h
      · next hany =>
        cases h
        exact ⟨⟨ht, by simpa [ha] using hany⟩, rfl⟩
      · cases h
  · rintro ⟨hv, rfl⟩
    have hlisted := hv.listed
    cases ha : p.allowed with
    | none => simp [hv.accepted]
    | some members =>
      have hany : members.any (State.looselyEqual · w) = true := by simpa [ha] using hlisted
      simp [hv.accepted, hany]

theorem parameter_bind_iff : Parameter.bind p args = .ok v ↔ Takes p args v := by
  cases hg : given? p args with
  | none =>
    rw [bind_absent_iff hg]
    constructor
    · rintro ⟨hr, hv⟩
      cases hd : p.default <;> rw [hd] at hv <;> cases hv
      · exact .null hg hr hd
      · exact .default hg hr hd
    · intro h
      cases h with
      | given hg' hv =>
        rw [given?_eq_some.2 ⟨hg', hv.ne_null⟩] at hg
        cases hg
      | default _ hr hd => simp [hr, hd]
      | null _ hr hd => simp [hr, hd]
  | some w =>
    obtain ⟨hget, -⟩ := given?_eq_some.1 hg
    rw [bind_given_iff hg]
    constructor
    · rintro ⟨hv, rfl⟩
      exact .given hget hv
    · intro h
      cases h with
      | given hg' hv =>
        obtain rfl : w = v := Option.some.inj (hget.symm.trans hg')
        exact ⟨hv, rfl⟩
      | default hg' | null hg' =>
        rw [hg] at hg'
        cases hg'

structure DefaultPasses (p : Parameter) : Prop where
  optional : p.required = true → p.default = none
  passes : ∀ v ∈ p.default, Passes p v

theorem defaultPasses_of_wellFormed (h : p.draft.WellFormed) : DefaultPasses p := by
  obtain ⟨type, htype, htyped⟩ := h.type
  obtain rfl : p.type = type := Option.some.inj ((ParamType.parse?_name p.type).symm.trans htype)
  refine ⟨h.required, fun v hv => ⟨htyped.default v hv, fun members hm => ?_⟩⟩
  obtain ⟨member, hmem, hsame⟩ := (htyped.enum members hm).2.2 v hv
  exact ⟨member, hmem, State.looselyEqual_of_same hsame⟩

theorem defaultPasses_of_load {format : Format} {bytes : ByteArray} {d : Document} {phase : Phase}
    (hload : loadAs format bytes = .ok d) (hf : f ∈ d.functionsOf phase) :
    ∀ p ∈ f.parameters, DefaultPasses p := fun _ hp =>
  defaultPasses_of_wellFormed ((wellFormed_of_load hload hf).parameters _ (List.mem_map_of_mem hp))

theorem Takes.again (h : Takes p args v) (hp : DefaultPasses p)
    (hg : args'.get? p.name = some v) : Takes p args' v := by
  cases h with
  | given _ hv => exact .given hg hv
  | default _ _ hd => exact .given hg (hp.passes v hd)
  | null _ hr hd => exact .null (by rw [given?, hg]) hr hd

theorem Takes.unique {w : Json} (h : Takes p args v) (h' : Takes p args w) : w = v := by
  rw [← parameter_bind_iff] at h h'
  exact Except.ok.inj (h'.symm.trans h)

theorem takes_congr (hg : args'.get? p.name = args.get? p.name) :
    Takes p args' v ↔ Takes p args v := by
  rw [← parameter_bind_iff, ← parameter_bind_iff, Parameter.bind, Parameter.bind, given?, given?,
    hg]

theorem bindAll_congr (h : ∀ p ∈ ps, Parameter.bind p args' = Parameter.bind p args) :
    bindAll ps args' = bindAll ps args := by
  induction ps using List.reverseRecOn with
  | nil => rfl
  | append_singleton ps p ih =>
    rw [List.forall_mem_append, List.forall_mem_singleton] at h
    rw [bindAll_append, bindAll_append, ih h.1, h.2]

/-- Arguments from which each parameter takes the same are bound alike. -/
theorem bind_of_takes (hb : bind ps args = .ok bound) (hn : ∀ n ∈ args'.names, n ∈ ps.map (·.name))
    (h : ∀ p ∈ ps, ∀ v, Takes p args v → Takes p args' v) : bind ps args' = .ok bound := by
  obtain ⟨⟨-, hall⟩, rfl⟩ := binding_eq_ok.1 hb
  have hsame : ∀ p ∈ ps, Parameter.bind p args' = Parameter.bind p args := by
    intro p hp
    obtain ⟨v, hv⟩ := hall p hp
    rw [hv, parameter_bind_iff]
    exact h p hp v (parameter_bind_iff.1 hv)
  refine binding_eq_ok.2 ⟨⟨hn, fun p hp => ?_⟩, by rw [bindAll_congr hsame]⟩
  rw [hsame p hp]
  exact hall p hp

theorem bind_bound (hn : (ps.map (·.name)).Nodup) (hd : ∀ p ∈ ps, DefaultPasses p)
    (hb : bind ps args = .ok bound) : bind ps bound = .ok bound := by
  obtain ⟨-, hbound⟩ := binding_eq_ok.1 hb
  subst hbound
  refine bind_of_takes hb ?_ ?_
  · intro n hmem
    obtain ⟨v, hv⟩ := Fields.mem_names.1 hmem
    obtain ⟨p, hp, rfl, -⟩ := (get?_bindAll_eq_some hn).1 hv
    exact List.mem_map_of_mem hp
  · intro p hp v hv
    exact hv.again (hd p hp) ((get?_bindAll_eq_some hn).2 ⟨p, hp, rfl, parameter_bind_iff.2 hv⟩)

theorem bind_insert (hn : (ps.map (·.name)).Nodup) (hd : ∀ p ∈ ps, DefaultPasses p) (hp : p ∈ ps)
    (hv : Takes p args v) (hb : bind ps args = .ok bound) :
    bind ps (Fields.insert p.name v args) = .ok bound := by
  obtain ⟨⟨hnames, -⟩, -⟩ := binding_eq_ok.1 hb
  refine bind_of_takes hb ?_ ?_
  · intro n hmem
    rcases Fields.mem_names_insert.1 hmem with rfl | hmem
    · exact List.mem_map_of_mem hp
    · exact hnames n hmem
  · intro q hq w hw
    by_cases hqp : q.name = p.name
    · obtain rfl : q = p := List.inj_on_of_nodup_map hn hq hp hqp
      obtain rfl := hv.unique hw
      exact hw.again (hd q hq) (Fields.get?_insert_self q.name w args)
    · exact (takes_congr (Fields.get?_insert_of_ne hqp v args)).2 hw

/-- A call sees of its arguments only what they are bound to. -/
theorem invoke_of_bind {c : Callable} (h : bind c.function.parameters args' =
    bind c.function.parameters args) (evaluate : Evaluator) (store : State.Store) :
    c.invoke evaluate args' store = c.invoke evaluate args store := by
  simp only [Callable.invoke, perform, resolve, h]

/-- Bound arguments are bound to themselves. To leave out an optional argument, or to give null for
it, is the same call as to give its default. -/
theorem default_same_call {format : Format} {bytes : ByteArray} {d : Document} {phase : Phase}
    (hload : loadAs format bytes = .ok d) (hf : f ∈ d.functionsOf phase)
    (hb : bind f.parameters args = .ok bound) :
    bind f.parameters bound = .ok bound ∧
    ∀ p ∈ f.parameters, p.required = false → given? p args = none → ∀ v, p.default = some v →
      bind f.parameters (Fields.insert p.name v args) = .ok bound ∧
      ∀ c : Callable, c.function = f → ∀ evaluate store,
        c.invoke evaluate (Fields.insert p.name v args) store = c.invoke evaluate args store := by
  have hn := nodup_parameterNames hload hf
  have hd := defaultPasses_of_load hload hf
  refine ⟨bind_bound hn hd hb, fun p hp hr hg v hv => ?_⟩
  have hinsert := bind_insert hn hd hp (.default hg hr hv) hb
  refine ⟨hinsert, ?_⟩
  rintro c rfl evaluate store
  exact invoke_of_bind (hinsert.trans hb.symm) evaluate store

def tollText : String :=
  "\x7b\"metadata\":\x7b\"id\":\"toll\",\"name\":\"Toll\",\"version\":\"1\"\x7d,
   \"functionsByPhase\":\x7b\"rest\":[\x7b\"id\":\"pay\",\"name\":\"pay\",
   \"parameters\":[\x7b\"name\":\"fee\",\"type\":\"number\",\"default\":1,\"enum\":[0,1]\x7d,
   \x7b\"name\":\"note\",\"type\":\"string\"\x7d]\x7d]\x7d\x7d"

def tollParameters : List Parameter :=
  [⟨"fee", .number, false, "", some (.int 1), some [.int 0, .int 1]⟩,
    ⟨"note", .string, false, "", none, none⟩]

def isToll : List Parameter → Bool
  | [⟨"fee", .number, false, "", some (.int 1), some [.int 0, .int 1]⟩,
      ⟨"note", .string, false, "", none, none⟩] => true
  | _ => false

theorem eq_toll (h : isToll ps = true) : ps = tollParameters := by
  unfold isToll at h
  split at h
  · rfl
  · cases h

theorem default_same_call_toll : ∃ d f, loadAs .json tollText.toUTF8 = .ok d ∧
    f ∈ d.functionsOf .rest ∧ f.parameters = tollParameters ∧
    bind f.parameters [] = .ok [("fee", .int 1), ("note", .null)] ∧
    bind f.parameters [("fee", .int 1), ("note", .null)] =
      .ok [("fee", .int 1), ("note", .null)] ∧
    bind f.parameters [("fee", .int 1)] = .ok [("fee", .int 1), ("note", .null)] := by
  have hload : (loadAs .json tollText.toUTF8).toOption.any (fun d =>
      (d.functionsOf .rest).any fun f => isToll f.parameters) = true := by decide +kernel
  obtain ⟨d, hd, hany⟩ := exists_of_toOption_any hload
  obtain ⟨f, hf, htoll⟩ := List.any_eq_true.1 hany
  have hps := eq_toll htoll
  have hb : bind f.parameters [] = .ok [("fee", .int 1), ("note", .null)] := by
    rw [hps]
    rfl
  obtain ⟨hbound, hdefault⟩ := default_same_call hd hf hb
  have hfee : ⟨"fee", .number, false, "", some (.int 1), some [.int 0, .int 1]⟩ ∈ f.parameters := by
    rw [hps]
    exact .head _
  exact ⟨d, f, hd, hf, hps, hb, hbound, (hdefault _ hfee rfl rfl _ rfl).1⟩

end Rulebook.Call
