import Rulebook.Proofs.Redrafting
import Rulebook.Proofs.Sessions

namespace Rulebook

def errorsOf {ε α : Type} : Except (List ε) α → List ε
  | .ok _ => []
  | .error es => es

theorem find?_key_eq_some {α κ : Type} [DecidableEq κ] {key : α → κ} {xs : List α}
    (hn : (xs.map key).Nodup) {k : κ} {x : α} :
    xs.find? (fun y => key y == k) = some x ↔ x ∈ xs ∧ key x = k := by
  constructor
  · intro h
    exact ⟨List.mem_of_find?_eq_some h, by simpa using List.find?_some h⟩
  · rintro ⟨hx, hk⟩
    cases hf : xs.find? (fun y => key y == k) with
    | none => exact absurd hk (by simpa using List.find?_eq_none.1 hf x hx)
    | some y =>
      have hy : key y = k := by simpa using List.find?_some hf
      rw [List.inj_on_of_nodup_map hn (List.mem_of_find?_eq_some hf) hx (hy.trans hk.symm)]

namespace Ruleset

theorem PhaseMap.get?_map {α : Type} (g : Phase → α) (ps : List Phase) (p : Phase) :
    PhaseMap.get? (ps.map fun q => (q, g q)) p = if p ∈ ps then some (g p) else none := by
  induction ps with
  | nil => rfl
  | cons q ps ih =>
    rw [List.map_cons, PhaseMap.get?_cons, ih]
    by_cases h : p = q <;> simp [h]

theorem functionsOf_of_not_mem {d : Document} {p : Phase} (h : p ∉ d.phases) :
    d.functionsOf p = [] := by
  have hnone : PhaseMap.get? d.functions p = none :=
    Option.eq_none_iff_forall_not_mem.2 fun v hv => h (PhaseMap.mem_phases_iff.2 ⟨v, hv⟩)
  rw [Document.functionsOf, hnone, Option.getD_none]

variable {format : Format} {bytes : ByteArray} {d : Document}

theorem nodup_names_functionsOf (hload : loadAs format bytes = .ok d) (p : Phase) :
    ((d.functionsOf p).map (·.name)).Nodup := by
  obtain ⟨draft, -, hw, rfl⟩ := loadAs_eq_ok.1 hload
  by_cases hp : p ∈ draft.document.phases
  · obtain ⟨fs, hfs⟩ := PhaseMap.mem_phases_iff.1 hp
    rw [Document.functionsOf, hfs, Option.getD_some]
    exact nodup_names_of_mem hw (draft.sorted_functions.mem_iff.2 hfs)
  · rw [functionsOf_of_not_mem hp]
    exact .nil

theorem phases_ascend (hload : loadAs format bytes = .ok d) :
    d.phases.Pairwise (·.rank < ·.rank) := by
  obtain ⟨draft, -, -, rfl⟩ := loadAs_eq_ok.1 hload
  exact List.pairwise_map.2 draft.sorted_functions

end Ruleset

namespace Call

open Ruleset

variable {roots : List String} {d : Document}

theorem callables_succeed_iff :
    (∃ all, allCallables roots d = .ok all) ↔
      ∀ p ∈ d.phases, ∃ cs, callables roots d p = .ok cs := by
  simp [allCallables_eq_ok, callables_eq_ok]

/-- The violations of all phases are those of each, in the order of the phases. -/
theorem errorsOf_allCallables (roots : List String) (d : Document) :
    errorsOf (allCallables roots d) =
      d.phases.flatMap fun p => errorsOf (callables roots d p) := by
  rw [allCallables]
  induction d.phases with
  | nil => rfl
  | cons p ps ih =>
    rw [allCallables.go, List.flatMap_cons, ← ih]
    cases callables roots d p <;> cases allCallables.go roots d ps <;> simp [errorsOf]

/-- The callables of a document, all at once, are those of its phases one by one. -/
structure Gathers (roots : List String) (d : Document) : Prop where
  ascends : d.phases.Pairwise (·.rank < ·.rank)
  fails_iff : (∃ es, allCallables roots d = .error es) ↔
    ∃ p ∈ d.phases, ∃ es, callables roots d p = .error es
  errors : ∀ es, allCallables roots d = .error es →
    es = d.phases.flatMap fun p => errorsOf (callables roots d p)
  phases : ∀ all, allCallables roots d = .ok all → all.phases = d.phases
  holds : ∀ all, allCallables roots d = .ok all → ∀ p ∈ d.phases,
    ∃ cs, all.get? p = some cs ∧ callables roots d p = .ok cs
  others : ∀ p ∉ d.phases, callables roots d p = .ok []

theorem gathers_of_load {format : Format} {bytes : ByteArray} (hload : loadAs format bytes = .ok d)
    (roots : List String) : Gathers roots d := by
  constructor
  · exact phases_ascend hload
  · rw [exists_error_iff, callables_succeed_iff]
    simp only [exists_error_iff, not_forall, exists_prop]
  · intro es h
    rw [← errorsOf_allCallables, h, errorsOf]
  · intro all h
    rw [← (allCallables_eq_ok.1 h).2, PhaseMap.phases, List.map_map]
    exact List.map_id _
  · intro all h p hp
    obtain ⟨hknown, rfl⟩ := allCallables_eq_ok.1 h
    refine ⟨_, ?_, callables_eq_ok.2 ⟨hknown p hp, rfl⟩⟩
    rw [PhaseMap.get?_map, if_pos hp]
  · intro p hp
    simp [callables_eq_ok, functionsOf_of_not_mem hp]

end Call

namespace Session

open Ruleset Call

variable {s s' : Session} {roots : List String} {id : String} {a : Active} {d : Document}

/-- An active document answers with its functions, each under its name. -/
structure Active.Answers (a : Active) (d : Document) : Prop where
  callables : ∀ p, a.callablesOf p = (d.functionsOf p).map fun f => ⟨f, p, d⟩
  namesDistinct : ∀ p, ((a.callablesOf p).map (·.function.name)).Nodup
  finds : ∀ p name c, a.callable? p name = some c ↔
    ∃ f ∈ d.functionsOf p, f.name = name ∧ c = ⟨f, p, d⟩

theorem callablesOf_active (hd : Fields.get? s.loaded id = some d)
    (h : s.setActive roots id = .ok (a, s')) (p : Phase) :
    a.callablesOf p = (d.functionsOf p).map fun f => ⟨f, p, d⟩ := by
  obtain ⟨d', all, hd', hall, rfl, -⟩ := setActive_eq_ok.1 h
  obtain rfl : d' = d := Option.some.inj (hd'.symm.trans hd)
  rw [Active.callablesOf, ← (allCallables_eq_ok.1 hall).2, PhaseMap.get?_map]
  by_cases hp : p ∈ d'.phases
  · rw [if_pos hp, Option.getD_some]
  · rw [if_neg hp, functionsOf_of_not_mem hp, List.map_nil, Option.getD_none]

theorem answers_of_setActive {format : Format} {bytes : ByteArray}
    (hload : loadAs format bytes = .ok d) (hd : Fields.get? s.loaded id = some d)
    (h : s.setActive roots id = .ok (a, s')) : a.Answers d := by
  have hcallables := callablesOf_active hd h
  have hnames (p : Phase) : ((a.callablesOf p).map (·.function.name)).Nodup := by
    rw [hcallables, List.map_map]
    exact nodup_names_functionsOf hload p
  refine ⟨hcallables, hnames, fun p name c => ?_⟩
  rw [Active.callable?, find?_key_eq_some (hnames p), hcallables, List.mem_map]
  constructor
  · rintro ⟨⟨f, hf, rfl⟩, hname⟩
    exact ⟨f, hf, hname, rfl⟩
  · rintro ⟨f, hf, hname, rfl⟩
    exact ⟨⟨f, hf, rfl⟩, hname⟩

/-- A name that a phase does not have is an error of the arguments, and the state stays. -/
theorem invokeIn_undeclared (hanswers : a.Answers d) (hdocument : a.document = d)
    (hactive : s.active = some a) {p : Phase} {name : String}
    (hname : ∀ f ∈ d.functionsOf p, f.name ≠ name) (evaluate : Evaluator) (args : Fields Json)
    (state : State.Store) :
    ∃ e, e.kind = .argument ∧
      s.invokeIn evaluate p name args state = (⟨name, p, d.id.text, .failed e⟩, state) := by
  have hnone : a.callable? p name = none := by
    refine Option.eq_none_iff_forall_not_mem.2 fun c hc => ?_
    obtain ⟨f, hf, hfn, -⟩ := (hanswers.finds p name c).1 hc
    exact hname f hf hfn
  refine ⟨Active.unknownFunction p name, rfl, ?_⟩
  rw [invokeIn, hactive, ← hdocument]
  simp only [Active.invoke, hnone]

/-- A document that was loaded and made active answers with its functions, each under its name, and
refuses other names. Its callables, made all at once, are those of the phases one by one. -/
theorem active_dispatches_by_name {format : Format} {bytes : ByteArray}
    (hload : loadAs format bytes = .ok d) (store : State.Store) :
    (∀ (s s' : Session) (id : String) (a : Active), Fields.get? s.loaded id = some d →
      s.setActive store.names id = .ok (a, s') →
      s'.active = some a ∧ a.Answers d ∧
      ∀ p name, (∀ f ∈ d.functionsOf p, f.name ≠ name) → ∀ evaluate args state,
        ∃ e, e.kind = .argument ∧
          s'.invokeIn evaluate p name args state =
            (⟨name, p, d.id.text, .failed e⟩, state)) ∧
    Gathers store.names d := by
  refine ⟨fun s s' id a hd h => ?_, gathers_of_load hload store.names⟩
  have hanswers := answers_of_setActive hload hd h
  obtain ⟨d', all, hd', -, ha, hs'⟩ := setActive_eq_ok.1 h
  have hactive : s'.active = some a := by rw [hs']
  have hdocument : a.document = d := by
    rw [ha]
    exact Option.some.inj (hd'.symm.trans hd)
  exact ⟨hactive, hanswers, fun p name hname evaluate args state =>
    invokeIn_undeclared hanswers hdocument hactive hname evaluate args state⟩

theorem active_dispatches_by_name_camp : ∃ d a s', loadAs .json campText.toUTF8 = .ok d ∧
    ((start none).add d).setActive ["character", "gameState"] d.id.text = .ok (a, s') ∧
    a.callable? .rest "f" = some ⟨campFunction, .rest, d⟩ ∧
    ∀ evaluate args state, ∃ e, e.kind = .argument ∧
      s'.invokeIn evaluate .rest "g" args state =
        (⟨"g", .rest, d.id.text, .failed e⟩, state) := by
  obtain ⟨d, hd, hf⟩ := load_camp
  have hroots : ∀ root ∈ stateRoots,
      (State.Store.withRoots ["character", "gameState"]).hasRoot root = true := by decide
  have hloaded : Fields.get? ((start none).add d).loaded d.id.text = some d :=
    Fields.get?_insert_self _ _ _
  have hactive := setActive_eq_ok.2 ⟨d, _, hloaded, allCallables_of_load hd hroots, rfl, rfl⟩
  have hundeclared : ∀ f ∈ d.functionsOf .rest, f.name ≠ "g" := by simp [hf, campFunction]
  obtain ⟨-, hanswers, hrefuses⟩ :=
    (active_dispatches_by_name hd (.withRoots ["character", "gameState"])).1 _ _ _ _ hloaded hactive
  exact ⟨d, _, _, hd, hactive,
    (hanswers.finds _ _ _).2 ⟨campFunction, by simp [hf], rfl, rfl⟩, hrefuses .rest "g" hundeclared⟩

end Session

end Rulebook
