import Rulebook.Proofs.PhaseMaps

namespace Rulebook.Ruleset

theorem ParamType.parse?_name (t : ParamType) : ParamType.parse? t.name = some t := by
  cases t <;> decide +kernel

theorem ofName?_name (op : State.Operation) : State.Operation.ofName? op.name = some op := by
  cases op <;> decide +kernel

theorem Phase.parse?_name (p : Phase) : Phase.parse? p.name = some p := by
  cases p <;> decide +kernel

def Metadata.draft (m : Metadata) : DraftMetadata :=
  ⟨m.id, m.name, .str m.version, m.tags, m.description⟩

def Parameter.draft (p : Parameter) : DraftParameter :=
  ⟨p.name, p.type.name, p.required, p.description, p.default, p.allowed⟩

def EffectSpec.draft (e : EffectSpec) : DraftEffect := ⟨e.target, e.operation.name, e.value⟩

def Function.draft (f : Function) : DraftFunction :=
  ⟨f.id, f.name, f.description, f.parameters.map Parameter.draft, f.validations,
    f.effects.map EffectSpec.draft⟩

def named {α β : Type} (write : β → α) (m : PhaseMap β) : List (String × α) :=
  m.map fun e => (e.1.name, write e.2)

def Document.draft (d : Document) : Draft where
  metadata := d.metadata.draft
  functions := Fields.ofList (named (List.map Function.draft) d.functions)
  gameData := d.gameData
  prompts := Fields.ofList (named (fun text => text) d.prompts)

section Checked

variable {location : String}

theorem Parameter.checked?_draft {p : Parameter} (h : p.draft.WellFormed) :
    p.draft.checked? location = some p := by
  rw [DraftParameter.checked?, checkParameter_eq_nil.2 h, List.isEmpty_nil, if_pos rfl,
    Parameter.draft, ParamType.parse?_name]
  rfl

theorem checkedParameters_draft {ps : List Parameter} (h : ∀ p ∈ ps, p.draft.WellFormed) (i : Nat) :
    checkedParameters location i (ps.map Parameter.draft) = ps := by
  induction ps generalizing i with
  | nil => rfl
  | cons p ps ih =>
    rw [List.forall_mem_cons] at h
    rw [List.map_cons, checkedParameters, Parameter.checked?_draft h.1, ih h.2]
    rfl

theorem filterMap_draft (es : List EffectSpec) :
    (es.map EffectSpec.draft).filterMap DraftEffect.checked? = es := by
  have hchecked (e : EffectSpec) : e.draft.checked? = some e := by
    rw [DraftEffect.checked?, EffectSpec.draft, ofName?_name]
    rfl
  rw [List.filterMap_map]
  exact (List.filterMap_congr fun e _ => hchecked e).trans List.filterMap_some

theorem Function.checked?_draft {f : Function} (h : f.draft.WellFormed) :
    f.draft.checked? location = some f := by
  have hparameters (p : Parameter) (hp : p ∈ f.parameters) : p.draft.WellFormed :=
    h.parameters p.draft (List.mem_map_of_mem hp)
  rw [DraftFunction.checked?, checkFunction_eq_nil.2 h, List.isEmpty_nil, if_pos rfl]
  simp only [Function.draft, checkedParameters_draft hparameters, filterMap_draft]

theorem checkedFunctions_draft {fs : List Function} (h : ∀ f ∈ fs, f.draft.WellFormed) (i : Nat) :
    checkedFunctions location i (fs.map Function.draft) = fs := by
  induction fs generalizing i with
  | nil => rfl
  | cons f fs ih =>
    rw [List.forall_mem_cons] at h
    rw [List.map_cons, checkedFunctions, Function.checked?_draft h.1, ih h.2]
    rfl

theorem wellFormed_parameter {p : DraftParameter} {q : Parameter}
    (h : p.checked? location = some q) : q.draft.WellFormed := by
  unfold DraftParameter.checked? at h
  split at h
  · next hc =>
    have hw : p.WellFormed := checkParameter_eq_nil.1 (List.isEmpty_iff.1 hc)
    obtain ⟨type, htype, rfl⟩ := Option.map_eq_some_iff.1 h
    obtain ⟨type', htype', htyped⟩ := hw.type
    cases htype.symm.trans htype'
    exact ⟨hw.name, hw.noRoot, hw.required, type, ParamType.parse?_name type,
      htyped.default, htyped.enum⟩
  · cases h

theorem mem_checkedParameters {ps : List DraftParameter} {q : Parameter} {i : Nat}
    (h : q ∈ checkedParameters location i ps) : ∃ p ∈ ps, ∃ here, p.checked? here = some q := by
  induction ps generalizing i with
  | nil => cases h
  | cons p ps ih =>
    rcases List.mem_append.1 h with h | h
    · exact ⟨p, .head _, _, by simpa using h⟩
    · obtain ⟨r, hr, hc⟩ := ih h
      exact ⟨r, .tail _ hr, hc⟩

theorem wellFormed_function {f : DraftFunction} {fn : Function}
    (h : f.checked? location = some fn) : fn.draft.WellFormed := by
  unfold DraftFunction.checked? at h
  split at h
  · next hc =>
    cases h
    have hw : f.WellFormed := checkFunction_eq_nil.1 (List.isEmpty_iff.1 hc)
    have hnames : (Function.draft ⟨f.id, f.name, f.description,
        checkedParameters location 0 f.parameters, f.validations,
        f.effects.filterMap DraftEffect.checked?⟩).parameterNames = f.parameterNames := by
      rw [DraftFunction.parameterNames, Function.draft, List.map_map]
      exact names_checkedParameters hw.parameters 0
    constructor
    · exact hw.id
    · exact hw.name
    · intro p hp
      obtain ⟨q, hq, rfl⟩ := List.mem_map.1 hp
      obtain ⟨_, -, _, hc⟩ := mem_checkedParameters hq
      exact wellFormed_parameter hc
    · rw [hnames]
      exact hw.parametersDistinct
    · rw [hnames]
      exact hw.validations
    · rw [hnames]
      intro e he
      obtain ⟨s, hs, rfl⟩ := List.mem_map.1 he
      obtain ⟨e, hmem, hc⟩ := List.mem_filterMap.1 hs
      obtain ⟨op, -, rfl⟩ := Option.map_eq_some_iff.1 hc
      have hwe := hw.effects e hmem
      exact ⟨hwe.target, hwe.targetDeclares, hwe.valueDeclares, op, ofName?_name op⟩
  · cases h

theorem id_name_of_checked? {f : DraftFunction} {fn : Function}
    (h : f.checked? location = some fn) : fn.id = f.id ∧ fn.name = f.name := by
  unfold DraftFunction.checked? at h
  split at h
  · cases h
    exact ⟨rfl, rfl⟩
  · cases h

theorem map_checkedFunctions {β : Type} {g : DraftFunction → β} {k : Function → β}
    (hgk : ∀ f fn here, f.checked? here = some fn → k fn = g f) {fs : List DraftFunction}
    (h : ∀ f ∈ fs, f.WellFormed) (i : Nat) : (checkedFunctions location i fs).map k = fs.map g := by
  induction fs generalizing i with
  | nil => rfl
  | cons f fs ih =>
    rw [List.forall_mem_cons] at h
    obtain ⟨fn, hfn⟩ : ∃ fn, f.checked? (location ++ "[" ++ toString i ++ "]") = some fn := by
      rw [DraftFunction.checked?, checkFunction_eq_nil.2 h.1]
      exact ⟨_, rfl⟩
    rw [checkedFunctions, hfn, Option.toList_some, List.singleton_append, List.map_cons, ih h.2,
      hgk f fn _ hfn, List.map_cons]

end Checked

section ByPhase

variable {α β : Type} {read : String → α → β} {write : β → α} {m : PhaseMap β}

theorem name_injective : Function.Injective Phase.name := fun p q h =>
  Option.some.inj ((Phase.parse?_name p).symm.trans (h ▸ Phase.parse?_name q))

theorem nodup_names_named (write : β → α) (hm : m.Sorted) :
    (Fields.names (named write m)).Nodup := by
  have hnames : Fields.names (named write m) = m.phases.map Phase.name := by
    simp [Fields.names, named, PhaseMap.phases]
  exact hnames ▸ hm.nodup_phases.map name_injective

theorem ofList_named_perm (write : β → α) (hm : m.Sorted) :
    (Fields.ofList (named write m)).Perm (named write m) :=
  Fields.ofList_perm (nodup_names_named write hm)

theorem keyPhases_named (write : β → α) (m : PhaseMap β) :
    keyPhases (named write m) = m.phases.map some := by
  rw [keyPhases, named, PhaseMap.phases, List.map_map, List.map_map]
  simp only [Function.comp_def, Phase.parse?_name]

theorem nodup_keyPhases_named (write : β → α) (hm : m.Sorted) :
    (keyPhases (Fields.ofList (named write m))).Nodup := by
  have hperm : (keyPhases (Fields.ofList (named write m))).Perm (keyPhases (named write m)) :=
    (ofList_named_perm write hm).map _
  rw [hperm.nodup_iff, keyPhases_named]
  exact hm.nodup_phases.map (Option.some_injective _)

theorem byPhase_named (hm : m.Sorted) (h : ∀ e ∈ m, read e.1.name (write e.2) = e.2) :
    byPhase read (Fields.ofList (named write m)) = m := by
  have hperm := ofList_named_perm write hm
  have hn := nodup_keyPhases_named write hm
  refine (sorted_byPhase read _).ext hm fun p => Option.ext fun v => ?_
  rw [get?_byPhase_iff read hn, ← hm.mem_iff]
  constructor
  · rintro ⟨entry, hmem, hp, rfl⟩
    obtain ⟨e, he, rfl⟩ := List.mem_map.1 (hperm.mem_iff.1 hmem)
    obtain rfl : e.1 = p := Option.some.inj ((Phase.parse?_name e.1).symm.trans hp)
    rw [h e he]
    exact he
  · intro hv
    exact ⟨(p.name, write v), hperm.mem_iff.2 (List.mem_map_of_mem hv), Phase.parse?_name p,
      h (p, v) hv⟩

theorem byPhase_perm (read : String → α → β) {entries : Fields α} (hn : (keyPhases entries).Nodup)
    (h : ∀ entry ∈ entries, ∃ p, Phase.parse? entry.1 = some p) :
    ((byPhase read entries).map fun e => (some e.1, e.2)).Perm
      (entries.map fun entry => (Phase.parse? entry.1, read entry.1 entry.2)) := by
  have hsorted := sorted_byPhase read entries
  have hphases (m : PhaseMap β) :
      (m.map fun e => (some e.1, e.2)).map Prod.fst = m.phases.map some := by
    simp [PhaseMap.phases]
  have hkeys :
      (entries.map fun entry => (Phase.parse? entry.1, read entry.1 entry.2)).map Prod.fst =
        keyPhases entries := by
    simp [keyPhases]
  have hleft : ((byPhase read entries).map fun e => (some e.1, e.2)).Nodup := by
    refine List.Nodup.of_map Prod.fst ?_
    rw [hphases]
    exact hsorted.nodup_phases.map (Option.some_injective _)
  have hright : (entries.map fun entry => (Phase.parse? entry.1, read entry.1 entry.2)).Nodup := by
    refine List.Nodup.of_map Prod.fst ?_
    rwa [hkeys]
  -- Neither side has an entry twice, so it is enough that they have the same entries.
  rw [List.perm_ext_iff_of_nodup hleft hright]
  rintro ⟨q, v⟩
  simp only [List.mem_map, Prod.mk.injEq]
  constructor
  · rintro ⟨⟨p, w⟩, he, rfl, rfl⟩
    obtain ⟨entry, hentry, hp, hv⟩ := (get?_byPhase_iff read hn).1 (hsorted.mem_iff.1 he)
    exact ⟨entry, hentry, hp, hv⟩
  · rintro ⟨entry, hentry, rfl, rfl⟩
    obtain ⟨p, hp⟩ := h entry hentry
    exact ⟨(p, read entry.1 entry.2),
      hsorted.mem_iff.2 ((get?_byPhase_iff read hn).2 ⟨entry, hentry, hp, rfl⟩), hp.symm, rfl⟩

end ByPhase

section Documents

attribute [ext] Document

variable {d : Draft}

theorem Draft.functions_document (d : Draft) : d.document.functions =
    byPhase (fun name => checkedFunctions (phaseLocation name) 0) d.functions := rfl

theorem Draft.prompts_document (d : Draft) :
    d.document.prompts = byPhase (fun _ text => text) d.prompts := rfl

theorem Draft.sorted_functions (d : Draft) : d.document.functions.Sorted := by
  rw [d.functions_document]
  exact sorted_byPhase _ _

theorem Draft.sorted_prompts (d : Draft) : d.document.prompts.Sorted := by
  rw [d.prompts_document]
  exact sorted_byPhase _ _

theorem Document.functions_draft (d : Document) : d.draft.functions =
    Fields.ofList (named (List.map Function.draft) d.functions) := rfl

theorem Document.prompts_draft (d : Document) :
    d.draft.prompts = Fields.ofList (named (fun text => text) d.prompts) := rfl

theorem mem_document_functions {e : Phase × List Function} (he : e ∈ d.document.functions)
    {fn : Function} (hfn : fn ∈ e.2) :
    ∃ entry ∈ d.functions, ∃ f ∈ entry.2, ∃ here, f.checked? here = some fn := by
  have hget := d.sorted_functions.mem_iff.1 he
  rw [d.functions_document] at hget
  obtain ⟨entry, hentry, -, hfs⟩ := mem_of_byPhase _ hget
  rw [← hfs] at hfn
  exact ⟨entry, hentry, mem_checkedFunctions hfn⟩

theorem wellFormed_of_mem {e : Phase × List Function} (he : e ∈ d.document.functions)
    {fn : Function} (hfn : fn ∈ e.2) : fn.draft.WellFormed := by
  obtain ⟨_, -, _, -, _, hc⟩ := mem_document_functions he hfn
  exact wellFormed_function hc

theorem wellFormed_of_load {format : Format} {bytes : ByteArray} {doc : Document} {p : Phase}
    {fn : Function} (hload : loadAs format bytes = .ok doc) (hfn : fn ∈ doc.functionsOf p) :
    fn.draft.WellFormed := by
  obtain ⟨draft, -, -, rfl⟩ := loadAs_eq_ok.1 hload
  obtain ⟨fs, hfs, hm⟩ := mem_functionsOf.1 hfn
  exact wellFormed_of_mem (draft.sorted_functions.mem_iff.2 hfs) hm

/-- The document gives itself back once it is written down as a draft. -/
theorem document_draft (d : Draft) : d.document.draft.document = d.document := by
  have hfunctions : d.document.draft.document.functions = d.document.functions := by
    rw [Draft.functions_document, Document.functions_draft]
    exact byPhase_named d.sorted_functions fun e he =>
      checkedFunctions_draft (fun fn hfn => wellFormed_of_mem he hfn) 0
  have hprompts : d.document.draft.document.prompts = d.document.prompts := by
    rw [Draft.prompts_document, Document.prompts_draft]
    exact byPhase_named d.sorted_prompts fun _ _ => rfl
  have hmetadata : d.document.draft.document.metadata = d.document.metadata := rfl
  have hdata : d.document.draft.document.gameData = d.document.gameData := rfl
  exact Document.ext hmetadata hfunctions hdata hprompts

theorem metadata_wellFormed {m : DraftMetadata} (h : m.WellFormed) :
    m.checked.draft.WellFormed := by
  have hversion : Text.blank m.versionText = false := (versionText_not_blank_iff m).2 h.version
  exact ⟨h.id, h.noAtSign, h.name, .inl ⟨m.versionText, rfl, hversion⟩⟩

theorem ids_document (h : d.WellFormed) :
    (d.document.functions.flatMap fun e => e.2.map (·.id)).Perm
      (d.functions.flatMap fun entry => entry.2.map (·.id)) := by
  have hperm := (byPhase_perm (fun name => checkedFunctions (phaseLocation name) 0)
    h.phasesDistinct h.phases).flatMap_right fun e => e.2.map (·.id)
  rw [List.flatMap_map, List.flatMap_map] at hperm
  refine hperm.trans (List.Perm.of_eq (List.flatMap_congr fun entry hentry => ?_))
  exact map_checkedFunctions (fun _ _ _ hc => (id_name_of_checked? hc).1)
    (h.functions entry hentry) 0

theorem nodup_names_of_mem (h : d.WellFormed) {e : Phase × List Function}
    (he : e ∈ d.document.functions) : (e.2.map (·.name)).Nodup := by
  have hget := d.sorted_functions.mem_iff.1 he
  rw [d.functions_document] at hget
  obtain ⟨entry, hentry, -, hfs⟩ := mem_of_byPhase _ hget
  rw [← hfs, map_checkedFunctions (fun _ _ _ hc => (id_name_of_checked? hc).2)
    (h.functions entry hentry) 0]
  exact h.namesDistinct entry hentry

/-- The draft of a loaded document is well-formed. -/
theorem wellFormed_draft (h : d.WellFormed) : d.document.draft.WellFormed := by
  have hfunctions := ofList_named_perm (List.map Function.draft) d.sorted_functions
  have hprompts := ofList_named_perm (fun text : String => text) d.sorted_prompts
  constructor
  · exact metadata_wellFormed h.metadata
  · intro entry hentry
    rw [Document.functions_draft] at hentry
    obtain ⟨e, he, rfl⟩ := List.mem_map.1 (hfunctions.mem_iff.1 hentry)
    exact ⟨e.1, Phase.parse?_name e.1⟩
  · rw [Document.functions_draft]
    exact nodup_keyPhases_named _ d.sorted_functions
  · intro entry hentry f hf
    rw [Document.functions_draft] at hentry
    obtain ⟨e, he, rfl⟩ := List.mem_map.1 (hfunctions.mem_iff.1 hentry)
    obtain ⟨fn, hfn, rfl⟩ := List.mem_map.1 hf
    exact wellFormed_of_mem he hfn
  · have hids : (named (List.map Function.draft) d.document.functions).flatMap
        (fun entry => entry.2.map (·.id)) =
        d.document.functions.flatMap fun e => e.2.map (·.id) := by
      simp [named, List.flatMap_map, Function.comp_def, Function.draft]
    have hperm := (hfunctions.flatMap_right fun entry => entry.2.map (·.id)).trans
      ((List.Perm.of_eq hids).trans (ids_document h))
    rw [Document.functions_draft]
    exact hperm.nodup_iff.2 h.idsDistinct
  · intro entry hentry
    rw [Document.functions_draft] at hentry
    obtain ⟨e, he, rfl⟩ := List.mem_map.1 (hfunctions.mem_iff.1 hentry)
    have hnames : (e.2.map Function.draft).map (·.name) = e.2.map (·.name) := by
      simp [Function.comp_def, Function.draft]
    rw [hnames]
    exact nodup_names_of_mem h he
  · intro entry hentry
    rw [Document.prompts_draft] at hentry
    obtain ⟨e, he, rfl⟩ := List.mem_map.1 (hprompts.mem_iff.1 hentry)
    exact ⟨e.1, Phase.parse?_name e.1⟩

end Documents

end Rulebook.Ruleset
