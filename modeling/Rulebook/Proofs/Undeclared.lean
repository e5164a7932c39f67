import Rulebook.Proofs.Acceptance
import Rulebook.Proofs.PlainNodes

namespace Rulebook.Ruleset

open Template (HoldsText placeholders reservedRoots)

inductive Place where
  | validation (i : Nat)
  | target (i : Nat)
  | value (i : Nat)
deriving DecidableEq, Repr

def Place.within (function : String) : Place → String
  | validation i => item function "ruleValidations" i
  | target i => item function "effects" i ++ ".target"
  | value i => item function "effects" i ++ ".value"

def Place.Mentions (f : DraftFunction) (n : String) : Place → Prop
  | validation i => ∃ s ∈ f.validations[i]?, n ∈ placeholders s
  | target i => ∃ e ∈ f.effects[i]?, n ∈ placeholders e.target
  | value i => ∃ e ∈ f.effects[i]?, ∃ s, HoldsText s e.value ∧ n ∈ placeholders s

def functionLocation (phase : String) (i : Nat) : String :=
  phaseLocation phase ++ "[" ++ toString i ++ "]"

section Locations

variable {a b : String} {i j : Nat}

theorem append_cons_inj {q : Char} {u w r z : List Char} (hu : q ∉ u) (hw : q ∉ w)
    (h : u ++ q :: r = w ++ q :: z) : u = w ∧ r = z := by
  induction u generalizing w with
  | nil =>
    cases w with
    | nil => exact ⟨rfl, (List.cons.inj h).2⟩
    | cons c w => exact absurd (List.cons.inj h).1 (List.ne_of_not_mem_cons hw)
  | cons c u ih =>
    cases w with
    | nil => exact absurd (List.cons.inj h).1.symm (List.ne_of_not_mem_cons hu)
    | cons d w =>
      obtain ⟨rfl, htail⟩ := List.cons.inj h
      obtain ⟨rfl, rfl⟩ :=
        ih (List.not_mem_of_not_mem_cons hu) (List.not_mem_of_not_mem_cons hw) htail
      exact ⟨rfl, rfl⟩

theorem bracketed_inj :
    a ++ "[" ++ toString i ++ "]" = b ++ "[" ++ toString j ++ "]" ↔ a = b ∧ i = j := by
  refine ⟨fun h => ?_, fun ⟨ha, hi⟩ => by rw [ha, hi]⟩
  have hdigits (n : Nat) : '[' ∉ (toString n).toList.reverse := fun hm => by
    have hd : '['.isDigit = true :=
      Nat.isDigit_of_mem_toDigits (b := 10) (n := n) (by decide) (by decide) (by simpa using hm)
    cases hd
  have h := congrArg (fun s => s.toList.reverse) ((String.append_left_inj "]").1 h)
  simp only [String.toList_append, List.reverse_append] at h
  obtain ⟨hi, ha⟩ := append_cons_inj (hdigits i) (hdigits j) h
  exact ⟨String.toList_inj.1 (List.reverse_inj.1 ha),
    Nat.repr_inj.1 (String.toList_inj.1 (List.reverse_inj.1 hi))⟩

theorem item_inj {name : String} : item a name i = item b name j ↔ a = b ∧ i = j := by
  rw [item, item, bracketed_inj, String.append_left_inj, String.append_left_inj]

theorem getLast?_item {name : String} : (item a name i).toList.getLast? = some ']' := by
  rw [item, String.toList_append]
  exact List.getLast?_concat

theorem within_inj {p q : Place} : p.within a = q.within b ↔ p = q ∧ a = b := by
  refine ⟨fun h => ?_, fun ⟨hp, ha⟩ => by rw [hp, ha]⟩
  have hlast := congrArg (fun s => s.toList.getLast?) h
  cases p <;> cases q <;> simp [Place.within, getLast?_item] at hlast
  · obtain ⟨rfl, rfl⟩ := item_inj.1 h
    exact ⟨rfl, rfl⟩
  · obtain ⟨rfl, rfl⟩ := item_inj.1 ((String.append_left_inj _).1 h)
    exact ⟨rfl, rfl⟩
  · obtain ⟨rfl, rfl⟩ := item_inj.1 ((String.append_left_inj _).1 h)
    exact ⟨rfl, rfl⟩

theorem functionLocation_inj : functionLocation a i = functionLocation b j ↔ a = b ∧ i = j := by
  rw [functionLocation, functionLocation, bracketed_inj]
  exact and_congr_left' (String.append_right_inj "functionsByPhase.")

end Locations

section Checks

variable {l location n : String} {declared : List String}

/-- The placeholder would have to be declared, and is not. -/
def IsUndeclared (declared : List String) (n : String) : Prop := n ∉ declared ∧ n ∉ reservedRoots

theorem undeclared_mem_expect {ok : Bool} {problem : Problem} (hp : problem ≠ .undeclared n) :
    ⟨l, .undeclared n⟩ ∉ expect ok location problem := by
  unfold expect
  split
  · exact List.not_mem_nil
  · simp [hp.symm]

theorem undeclared_mem_checkPlaceholders {names : List String} :
    ⟨l, .undeclared n⟩ ∈ checkPlaceholders location declared names ↔
      l = location ∧ n ∈ names ∧ IsUndeclared declared n := by
  simp [checkPlaceholders, IsUndeclared]
  tauto

theorem undeclared_mem_checkMembers {type : ParamType} {vs : List Json} (i : Nat) :
    ⟨l, .undeclared n⟩ ∉ checkMembers location type i vs := by
  induction vs generalizing i with
  | nil => exact List.not_mem_nil
  | cons v vs ih => simp [checkMembers, ih, undeclared_mem_expect]

theorem undeclared_mem_checkParameters {ps : List DraftParameter} (i : Nat) (seen : List String) :
    ⟨l, .undeclared n⟩ ∉ checkParameters location i seen ps := by
  induction ps generalizing i seen with
  | nil => exact List.not_mem_nil
  | cons p ps ih =>
    have htyped (here : String) (type : ParamType) :
        ⟨l, .undeclared n⟩ ∉ checkTyped here p type := by
      unfold checkTyped
      cases p.default <;> cases p.allowed <;>
        simp [undeclared_mem_expect, undeclared_mem_checkMembers]
    rw [checkParameters, checkParameter]
    cases ParamType.parse? p.type <;> simp [ih, undeclared_mem_expect, htyped]

theorem undeclared_mem_checkTarget {target : String} :
    ⟨l, .undeclared n⟩ ∉ checkTarget location target := by
  unfold checkTarget
  dsimp only
  split
  · simp
  split
  · simp
  split
  · exact undeclared_mem_expect nofun
  · simp

theorem exists_getElem?_cons {α : Type} {P : Nat → α → Prop} {x : α} {xs : List α} (i : Nat) :
    (∃ j y, (x :: xs)[j]? = some y ∧ P (i + j) y) ↔
      P i x ∨ ∃ j y, xs[j]? = some y ∧ P (i + 1 + j) y := by
  constructor
  · rintro ⟨j, y, hj, h⟩
    cases j with
    | zero =>
      cases hj
      exact .inl h
    | succ j => exact .inr ⟨j, y, hj, by rwa [Nat.add_right_comm]⟩
  · rintro (h | ⟨j, y, hj, h⟩)
    · exact ⟨0, x, rfl, h⟩
    · exact ⟨j + 1, y, hj, by rwa [Nat.add_right_comm] at h⟩

theorem undeclared_mem_checkValidations {ss : List String} (i : Nat) :
    ⟨l, .undeclared n⟩ ∈ checkValidations location declared i ss ↔
      ∃ j s, ss[j]? = some s ∧ ⟨l, .undeclared n⟩ ∈
        checkPlaceholders (item location "ruleValidations" (i + j)) declared (placeholders s) := by
  induction ss generalizing i with
  | nil => simp [checkValidations]
  | cons s ss ih =>
    rw [exists_getElem?_cons (P := fun j s => ⟨l, .undeclared n⟩ ∈
      checkPlaceholders (item location "ruleValidations" j) declared (placeholders s)) i, ← ih]
    simp [checkValidations, undeclared_mem_expect]

theorem undeclared_mem_checkEffect {e : DraftEffect} :
    ⟨l, .undeclared n⟩ ∈ checkEffect location declared e ↔
      (l = location ++ ".target" ∧ n ∈ placeholders e.target ∨
        l = location ++ ".value" ∧ n ∈ Template.valuePlaceholders e.value) ∧
        IsUndeclared declared n := by
  simp [checkEffect, undeclared_mem_expect, undeclared_mem_checkPlaceholders,
    undeclared_mem_checkTarget]
  tauto

theorem undeclared_mem_checkEffects {es : List DraftEffect} (i : Nat) :
    ⟨l, .undeclared n⟩ ∈ checkEffects location declared i es ↔
      ∃ j e, es[j]? = some e ∧
        ⟨l, .undeclared n⟩ ∈ checkEffect (item location "effects" (i + j)) declared e := by
  induction es generalizing i with
  | nil => simp [checkEffects]
  | cons e es ih =>
    rw [exists_getElem?_cons (P := fun j e =>
      ⟨l, .undeclared n⟩ ∈ checkEffect (item location "effects" j) declared e) i, ← ih]
    simp [checkEffects]

theorem mem_names_checkedParameters {ps : List DraftParameter} (i : Nat) :
    n ∈ (checkedParameters location i ps).map (·.name) ↔ ∃ p ∈ ps, p.name = n ∧ p.WellFormed := by
  induction ps generalizing i with
  | nil => simp [checkedParameters]
  | cons p ps ih =>
    have hp : n ∈ (p.checked? (item location "parameters" i)).toList.map (·.name) ↔
        p.name = n ∧ p.WellFormed := by
      have hwell : checkParameter (item location "parameters" i) p = [] ↔ p.WellFormed :=
        checkParameter_eq_nil
      rw [← hwell]
      by_cases hnil : checkParameter (item location "parameters" i) p = []
      · obtain ⟨type, ht, -⟩ := (hwell.1 hnil).type
        simp [DraftParameter.checked?, hnil, ht, eq_comm]
      · simp [DraftParameter.checked?, hnil]
    rw [checkedParameters, List.map_append, List.mem_append, hp, ih]
    simp

/-- A placeholder is reported where it occurs, unless a parameter without faults has its name. -/
theorem undeclared_mem_checkFunction {f : DraftFunction} :
    ⟨l, .undeclared n⟩ ∈ checkFunction location f ↔
      ∃ place : Place, l = place.within location ∧ place.Mentions f n ∧
        (¬ ∃ p ∈ f.parameters, p.name = n ∧ p.WellFormed) ∧ n ∉ reservedRoots := by
  have hdeclared : IsUndeclared ((checkedParameters location 0 f.parameters).map (·.name)) n ↔
      (¬ ∃ p ∈ f.parameters, p.name = n ∧ p.WellFormed) ∧ n ∉ reservedRoots := by
    rw [IsUndeclared, mem_names_checkedParameters]
  have hmem : ⟨l, .undeclared n⟩ ∈ checkFunction location f ↔
      ⟨l, .undeclared n⟩ ∈ checkValidations location
          ((checkedParameters location 0 f.parameters).map (·.name)) 0 f.validations ∨
        ⟨l, .undeclared n⟩ ∈ checkEffects location
          ((checkedParameters location 0 f.parameters).map (·.name)) 0 f.effects := by
    simp [checkFunction, undeclared_mem_expect, undeclared_mem_checkParameters]
  simp only [hmem, undeclared_mem_checkValidations, undeclared_mem_checkEffects,
    undeclared_mem_checkEffect, undeclared_mem_checkPlaceholders, hdeclared, Nat.zero_add]
  constructor
  · rintro (⟨j, s, hs, hl, hn, hd⟩ | ⟨j, e, he, ⟨hl, hn⟩ | ⟨hl, hn⟩, hd⟩)
    · exact ⟨.validation j, hl, ⟨s, hs, hn⟩, hd⟩
    · exact ⟨.target j, hl, ⟨e, he, hn⟩, hd⟩
    · exact ⟨.value j, hl, ⟨e, he, Template.mem_valuePlaceholders _ |>.1 hn⟩, hd⟩
  · rintro ⟨place, hl, hm, hd⟩
    cases place with
    | validation j =>
      obtain ⟨s, hs, hn⟩ := hm
      exact .inl ⟨j, s, hs, hl, hn, hd⟩
    | target j =>
      obtain ⟨e, he, hn⟩ := hm
      exact .inr ⟨j, e, he, .inl ⟨hl, hn⟩, hd⟩
    | value j =>
      obtain ⟨e, he, hn⟩ := hm
      exact .inr ⟨j, e, he, .inr ⟨hl, (Template.mem_valuePlaceholders _).2 hn⟩, hd⟩

theorem undeclared_mem_checkFunctions {phase : String} {fs : List DraftFunction} (i : Nat)
    (ids names : List String) :
    ⟨l, .undeclared n⟩ ∈ checkFunctions location phase i ids names fs ↔
      ∃ j f, fs[j]? = some f ∧
        ⟨l, .undeclared n⟩ ∈ checkFunction (location ++ "[" ++ toString (i + j) ++ "]") f := by
  induction fs generalizing i ids names with
  | nil => simp [checkFunctions]
  | cons f fs ih =>
    rw [exists_getElem?_cons (P := fun j f => ⟨l, .undeclared n⟩ ∈
      checkFunction (location ++ "[" ++ toString j ++ "]") f) i,
      ← ih (i + 1) (f.id :: ids) (f.name :: names)]
    simp [checkFunctions, undeclared_mem_expect]

theorem undeclared_mem_checkPhases {entries : Fields (List DraftFunction)} (ids : List String)
    (seen : List Phase) : ⟨l, .undeclared n⟩ ∈ checkPhases ids seen entries ↔
      ∃ phase fs, (phase, fs) ∈ entries ∧ ∃ i f, fs[i]? = some f ∧
        ⟨l, .undeclared n⟩ ∈ checkFunction (functionLocation phase i) f := by
  induction entries generalizing ids seen with
  | nil => simp [checkPhases]
  | cons entry rest ih =>
    obtain ⟨name, fs⟩ := entry
    -- the ids and phases that came before matter to other problems only
    have hrest : ⟨l, .undeclared n⟩ ∈ checkPhases ids seen ((name, fs) :: rest) ↔
        ⟨l, .undeclared n⟩ ∈ checkFunctions (phaseLocation name) name 0 ids [] fs ∨
          ⟨l, .undeclared n⟩ ∈ checkPhases [] [] rest := by
      rw [checkPhases, ih]
      cases Phase.parse? name <;> simp [ih, undeclared_mem_expect]
    rw [hrest, undeclared_mem_checkFunctions, ih]
    simp only [List.mem_cons, Prod.mk.injEq, Nat.zero_add]
    constructor
    · rintro (⟨i, f, hf, h⟩ | ⟨phase, gs, hgs, h⟩)
      · exact ⟨name, fs, .inl ⟨rfl, rfl⟩, i, f, hf, h⟩
      · exact ⟨phase, gs, .inr hgs, h⟩
    · rintro ⟨phase, gs, ⟨rfl, rfl⟩ | hgs, i, f, hf, h⟩
      · exact .inl ⟨i, f, hf, h⟩
      · exact .inr ⟨phase, gs, hgs, i, f, hf, h⟩

theorem undeclared_mem_violations {d : Draft} : ⟨l, .undeclared n⟩ ∈ d.violations ↔
    ∃ phase fs, (phase, fs) ∈ d.functions ∧ ∃ i f, fs[i]? = some f ∧
      ⟨l, .undeclared n⟩ ∈ checkFunction (functionLocation phase i) f := by
  have hmetadata : ⟨l, .undeclared n⟩ ∉ checkMetadata d.metadata := by
    unfold checkMetadata
    cases Text.blank d.metadata.id <;> simp [undeclared_mem_expect]
  have hprompts : ⟨l, .undeclared n⟩ ∉ checkPrompts d.prompts := by
    simp [checkPrompts, undeclared_mem_expect]
  rw [← undeclared_mem_checkPhases [] []]
  simp [Draft.violations, hmetadata, hprompts]

end Checks

section Loading

variable {format : Format} {bytes : ByteArray} {d : Draft}

def Reports (format : Format) (bytes : ByteArray) (v : Violation) : Prop :=
  ∃ vs, loadAs format bytes = .error vs ∧ v ∈ vs

theorem reports_iff (hd : format.draft? bytes = some d) (v : Violation) :
    Reports format bytes v ↔ v ∈ d.violations := by
  rw [Reports, loadAs, hd]
  show (∃ vs, d.validate = .error vs ∧ v ∈ vs) ↔ _
  rw [Draft.validate]
  cases d.violations <;> simp

theorem sorted_functions (hd : format.draft? bytes = some d) : d.functions.Sorted := by
  simp only [Format.draft?, Option.bind_eq_bind, Option.bind_eq_some_iff] at hd
  obtain ⟨node, hnode, hd⟩ := hd
  simp only [Draft.read, Option.bind_eq_bind, Option.bind_eq_some_iff] at hd
  obtain ⟨⟨inner, fields⟩, hfields, hd⟩ := hd
  have hplain := plain_of_record? (plain_of_parse? hnode) hfields
  split at hd
  · next metadata functions gameData prompts he =>
    cases he
    simp only [Option.bind_eq_some_iff, Option.pure_def, Option.some.injEq] at hd
    obtain ⟨_, -, _, -, fs, hfs, _, -, _, -, rfl⟩ := hd
    rcases of_orElse hfs with rfl | ⟨m, hm, hread⟩
    · exact List.Pairwise.nil
    · exact (mem_of_mapOf (hplain functions (by simp) m hm) hread).1
  · cases hd

variable {phase : String} {fs : List DraftFunction} {i : Nat} {f : DraftFunction}

theorem reports_undeclared_iff (hd : format.draft? bytes = some d)
    (hfs : (phase, fs) ∈ d.functions) (hf : fs[i]? = some f) (place : Place) (n : String) :
    Reports format bytes ⟨place.within (functionLocation phase i), .undeclared n⟩ ↔
      place.Mentions f n ∧ (¬ ∃ p ∈ f.parameters, p.name = n ∧ p.WellFormed) ∧
        n ∉ reservedRoots := by
  rw [reports_iff hd, undeclared_mem_violations]
  constructor
  · rintro ⟨phase', fs', hfs', i', f', hf', h⟩
    obtain ⟨place', hplace, hfree⟩ := undeclared_mem_checkFunction.1 h
    -- the location tells the phase, the function and the part
    obtain ⟨rfl, hfunction⟩ := within_inj.1 hplace
    obtain ⟨rfl, rfl⟩ := functionLocation_inj.1 hfunction
    have hnodup := (sorted_functions hd).nodup_names
    have hsame := (Fields.get?_eq_some_iff hnodup).2 hfs
    cases hsame.symm.trans ((Fields.get?_eq_some_iff hnodup).2 hfs')
    cases hf.symm.trans hf'
    exact hfree
  · intro h
    exact ⟨phase, fs, hfs, i, f, hf, undeclared_mem_checkFunction.2 ⟨place, rfl, h⟩⟩

/-- A placeholder that no parameter has the name of is reported. One that a parameter has the name
of is reported as well, unless such a parameter has no fault. -/
theorem undeclared_reported_iff (hd : format.draft? bytes = some d)
    (hfs : (phase, fs) ∈ d.functions) (hf : fs[i]? = some f) (place : Place) (n : String) :
    (Reports format bytes ⟨place.within (functionLocation phase i), .undeclared n⟩ ↔
      place.Mentions f n ∧ n ∉ f.parameterNames ∧ n ∉ reservedRoots) ↔
    (place.Mentions f n → n ∈ f.parameterNames → n ∉ reservedRoots →
      ∃ p ∈ f.parameters, p.name = n ∧ p.WellFormed) := by
  have hnames : n ∈ f.parameterNames ↔ ∃ p ∈ f.parameters, p.name = n := List.mem_map
  have hdeclared : (∃ p ∈ f.parameters, p.name = n ∧ p.WellFormed) → n ∈ f.parameterNames :=
    fun ⟨p, hp, hn, _⟩ => hnames.2 ⟨p, hp, hn⟩
  rw [reports_undeclared_iff hd hfs hf]
  constructor
  · intro h hm hn hroot
    by_contra hfault
    exact (h.1 ⟨hm, hfault, hroot⟩).2.1 hn
  · intro h
    constructor
    · exact fun ⟨hm, hfault, hroot⟩ => ⟨hm, fun hn => hfault (h hm hn hroot), hroot⟩
    · exact fun ⟨hm, hn, hroot⟩ => ⟨hm, fun hgood => hn (hdeclared hgood), hroot⟩

end Loading

def faultyText : String :=
  "\x7b\"metadata\":\x7b\"id\":\"d\",\"name\":\"D\",\"version\":\"1\"\x7d,
   \"functionsByPhase\":\x7b\"rest\":[\x7b\"id\":\"f\",\"name\":\"f\",
   \"parameters\":[\x7b\"name\":\"x\",\"type\":\"text\"\x7d],
   \"ruleValidations\":[\"\x7bx\x7d > \x7by\x7d\"]\x7d]\x7d\x7d"

def faultyFunction : DraftFunction :=
  ⟨"f", "f", "", [⟨"x", "text", false, "", none, none⟩], ["\x7bx\x7d > \x7by\x7d"], []⟩

def Draft.isFaulty (d : Draft) : Bool :=
  match d.functions with
  | [("rest", [⟨"f", "f", "", [⟨"x", "text", false, "", none, none⟩],
      ["\x7bx\x7d > \x7by\x7d"], []⟩])] => true
  | _ => false

theorem functions_of_isFaulty {d : Draft} (h : d.isFaulty = true) :
    d.functions = [("rest", [faultyFunction])] := by
  unfold Draft.isFaulty at h
  split at h
  · next hf => exact hf
  · cases h

theorem draft_faulty : ∃ d, Format.json.draft? faultyText.toUTF8 = some d ∧
    d.functions = [("rest", [faultyFunction])] := by
  have h : (Format.json.draft? faultyText.toUTF8).any Draft.isFaulty = true := by decide +kernel
  obtain ⟨d, hd, hfaulty⟩ := (Option.any_eq_true _ _).1 h
  exact ⟨d, hd, functions_of_isFaulty hfaulty⟩

theorem undeclared_reported_faulty : ∃ d, Format.json.draft? faultyText.toUTF8 = some d ∧
    Reports .json faultyText.toUTF8
      ⟨"functionsByPhase.rest[0].ruleValidations[0]", .undeclared "y"⟩ := by
  obtain ⟨d, hd, hfunctions⟩ := draft_faulty
  have hfs : ("rest", [faultyFunction]) ∈ d.functions := by simp [hfunctions]
  have hmentions : Place.Mentions faultyFunction "y" (.validation 0) :=
    ⟨_, rfl, by decide +kernel⟩
  have hnames : "y" ∉ faultyFunction.parameterNames := by decide
  exact ⟨d, hd, ((undeclared_reported_iff hd hfs (i := 0) rfl (.validation 0) "y").2
    fun _ hn => absurd hn hnames).2 ⟨hmentions, hnames, by decide⟩⟩

/-- The placeholder that has the parameter's name is reported as well. -/
theorem declared_reported : "x" ∈ faultyFunction.parameterNames ∧
    ∃ d, Format.json.draft? faultyText.toUTF8 = some d ∧ ("rest", [faultyFunction]) ∈ d.functions ∧
      Reports .json faultyText.toUTF8
        ⟨"functionsByPhase.rest[0].ruleValidations[0]", .undeclared "x"⟩ := by
  obtain ⟨d, hd, hfunctions⟩ := draft_faulty
  have hfs : ("rest", [faultyFunction]) ∈ d.functions := by simp [hfunctions]
  refine ⟨by decide, d, hd, hfs,
    (reports_undeclared_iff hd hfs (i := 0) rfl (.validation 0) "x").2 ⟨?_, ?_, by decide⟩⟩
  · exact ⟨_, rfl, by decide +kernel⟩
  · rintro ⟨p, hp, -, hw⟩
    obtain rfl := List.mem_singleton.1 hp
    obtain ⟨type, htype, -⟩ := hw.type
    cases htype

end Rulebook.Ruleset
