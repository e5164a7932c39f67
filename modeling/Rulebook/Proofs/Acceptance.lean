import Rulebook.Ruleset.Loading
import Rulebook.Proofs.Except
import Rulebook.Proofs.Numerals

namespace Rulebook.Template

inductive HoldsText (s : String) : Json → Prop
  | here : HoldsText s (.str s)
  | item {v : Json} {items : List Json} (hv : v ∈ items) (h : HoldsText s v) :
    HoldsText s (.arr items)
  | member {k : String} {v : Json} {members : List (String × Json)} (hv : (k, v) ∈ members)
    (h : HoldsText s v) : HoldsText s (.obj members)

variable {n s : String}

mutual

theorem mem_valuePlaceholders : ∀ v : Json,
    n ∈ valuePlaceholders v ↔ ∃ s, HoldsText s v ∧ n ∈ placeholders s
  | .str s => by
    rw [valuePlaceholders]
    exact ⟨fun h => ⟨s, .here, h⟩, fun ⟨_, .here, h⟩ => h⟩
  | .arr items => by
    rw [valuePlaceholders, mem_itemPlaceholders items]
    exact ⟨fun ⟨v, hv, s, hs, h⟩ => ⟨s, .item hv hs, h⟩,
      fun ⟨s, .item hv hs, h⟩ => ⟨_, hv, s, hs, h⟩⟩
  | .obj members => by
    rw [valuePlaceholders, mem_memberPlaceholders members]
    exact ⟨fun ⟨k, v, hv, s, hs, h⟩ => ⟨s, .member hv hs, h⟩,
      fun ⟨s, .member hv hs, h⟩ => ⟨_, _, hv, s, hs, h⟩⟩
  | .null | .bool _ | .int _ | .float _ => by
    simp only [valuePlaceholders, List.not_mem_nil, false_iff, not_exists, not_and]
    rintro s ⟨⟩

theorem mem_itemPlaceholders : ∀ items : List Json,
    n ∈ itemPlaceholders items ↔ ∃ v ∈ items, ∃ s, HoldsText s v ∧ n ∈ placeholders s
  | [] => by simp [itemPlaceholders]
  | v :: vs => by
    rw [itemPlaceholders, List.mem_append, mem_valuePlaceholders v, mem_itemPlaceholders vs]
    simp

theorem mem_memberPlaceholders : ∀ members : List (String × Json),
    n ∈ memberPlaceholders members ↔
      ∃ k v, (k, v) ∈ members ∧ ∃ s, HoldsText s v ∧ n ∈ placeholders s
  | [] => by simp [memberPlaceholders]
  | (k, v) :: ms => by
    rw [memberPlaceholders, List.mem_append, mem_valuePlaceholders v, mem_memberPlaceholders ms]
    simp only [List.mem_cons, Prod.mk.injEq]
    constructor
    · rintro (h | ⟨l, w, hw, h⟩)
      · exact ⟨k, v, .inl ⟨rfl, rfl⟩, h⟩
      · exact ⟨l, w, .inr hw, h⟩
    · rintro ⟨l, w, ⟨rfl, rfl⟩ | hw, h⟩
      · exact .inl h
      · exact .inr ⟨l, w, hw, h⟩

end

end Rulebook.Template

namespace Rulebook.Ruleset

open Template (HoldsText placeholders reservedRoots)

@[mk_iff]
structure DraftMetadata.WellFormed (m : DraftMetadata) : Prop where
  id : Text.blank m.id = false
  noAtSign : '@' ∉ m.id.toList
  name : Text.blank m.name = false
  version : (∃ s, m.version = .str s ∧ Text.blank s = false) ∨ (∃ n, m.version = .int n) ∨
    ∃ x, m.version = .float x

@[mk_iff]
structure DraftParameter.Typed (p : DraftParameter) (type : ParamType) : Prop where
  default : ∀ v ∈ p.default, type.accepts v = true
  enum : ∀ members ∈ p.allowed, members ≠ [] ∧ (∀ v ∈ members, type.accepts v = true) ∧
    ∀ v ∈ p.default, ∃ member ∈ members, member.same v = true

@[mk_iff]
structure DraftParameter.WellFormed (p : DraftParameter) : Prop where
  name : Text.isIdent p.name = true
  noRoot : p.name ∉ contextNames
  required : p.required = true → p.default = none
  type : ∃ type, ParamType.parse? p.type = some type ∧ p.Typed type

def DraftFunction.parameterNames (f : DraftFunction) : List String := f.parameters.map (·.name)

def Declares (names : List String) (text : String) : Prop :=
  ∀ n ∈ placeholders text, n ∈ names ∨ n ∈ reservedRoots

/-- At least two segments, none empty or with a blank in it, and a known root, unless that is to be
put together from arguments. -/
def IsTarget (target : String) : Prop :=
  ∃ root rest, Text.split '.' target = root :: rest ∧ rest ≠ [] ∧
    (∀ s ∈ root :: rest, s ≠ "" ∧ ∀ c ∈ s.toList, Text.isBlank c = false) ∧
    ('\x7b' ∈ root.toList ∨ root ∈ stateRoots)

@[mk_iff]
structure DraftEffect.WellFormed (names : List String) (e : DraftEffect) : Prop where
  target : IsTarget e.target
  targetDeclares : Declares names e.target
  valueDeclares : ∀ s, HoldsText s e.value → Declares names s
  operation : ∃ op, State.Operation.ofName? e.operation = some op

structure DraftFunction.WellFormed (f : DraftFunction) : Prop where
  id : Text.blank f.id = false
  name : f.name ≠ "" ∧ f.name.length ≤ maxNameLength ∧
    ∀ c ∈ f.name.toList, Text.isIdentRest c = true ∨ c = '-'
  parameters : ∀ p ∈ f.parameters, p.WellFormed
  parametersDistinct : f.parameterNames.Nodup
  validations : ∀ s ∈ f.validations, Text.blank s = false ∧ Declares f.parameterNames s
  effects : ∀ e ∈ f.effects, e.WellFormed f.parameterNames

@[mk_iff]
structure Draft.WellFormed (d : Draft) : Prop where
  metadata : d.metadata.WellFormed
  phases : ∀ entry ∈ d.functions, ∃ p, Phase.parse? entry.1 = some p
  phasesDistinct : (d.functions.map fun entry => Phase.parse? entry.1).Nodup
  functions : ∀ entry ∈ d.functions, ∀ f ∈ entry.2, f.WellFormed
  idsDistinct : (d.functions.flatMap fun entry => entry.2.map (·.id)).Nodup
  namesDistinct : ∀ entry ∈ d.functions, (entry.2.map (·.name)).Nodup
  prompts : ∀ entry ∈ d.prompts, ∃ p, Phase.parse? entry.1 = some p

variable {location : String} {declared : List String}

@[simp]
theorem expect_eq_nil {ok : Bool} {problem : Problem} :
    expect ok location problem = [] ↔ ok = true := by
  cases ok <;> simp [expect]

theorem not_isBlank_of_isDigit {c : Char} (h : c.isDigit = true) : Text.isBlank c = false := by
  simp only [Char.isDigit, Bool.and_eq_true, decide_eq_true_eq, ge_iff_le, UInt32.le_iff_toNat_le]
    at h
  have h₁ : 48 ≤ c.toNat := h.1
  have h₂ : c.toNat ≤ 57 := h.2
  simp only [Text.isBlank, Text.blankRanges, List.any_cons, List.any_nil, Bool.or_false,
    Bool.or_eq_false_iff, Bool.and_eq_false_iff, decide_eq_false_iff_not]
  omega

theorem not_blank_number {v : Json} (hv : v.IsNumber) : Text.blank v.print = false := by
  obtain ⟨m, hm, hc⟩ := Json.numeral_compact hv
  obtain ⟨d, t, rfl, hd⟩ := Rule.numeral_cons hm
  rw [Text.blank, Json.print, String.toList_ofList, hc, List.all_append, Bool.and_eq_false_iff,
    List.all_cons, not_isBlank_of_isDigit hd]
  exact .inr rfl

theorem versionText_not_blank_iff (m : DraftMetadata) : Text.blank m.versionText = false ↔
    (∃ s, m.version = .str s ∧ Text.blank s = false) ∨ (∃ n, m.version = .int n) ∨
      ∃ x, m.version = .float x := by
  unfold DraftMetadata.versionText
  cases hv : m.version with
  | str s => simp
  | int n => simpa using not_blank_number (v := .int n) trivial
  | float x =>
    simp only [reduceCtorEq, false_and, exists_false, Json.float.injEq, exists_eq', or_true,
      iff_true]
    by_cases hx : x.isFinite = true
    · exact not_blank_number (v := .float x) hx
    · rw [Json.print, Json.compact_of_not_isFinite hx]
      rfl
  | null | bool | arr | obj => simp [Text.blank]

theorem checkMetadata_eq_nil {m : DraftMetadata} : checkMetadata m = [] ↔ m.WellFormed := by
  have hid : (if Text.blank m.id then [(⟨"metadata.id", .blank⟩ : Violation)]
      else expect (!m.id.toList.contains '@') "metadata.id" .hasAtSign) = [] ↔
      Text.blank m.id = false ∧ '@' ∉ m.id.toList := by
    cases Text.blank m.id <;> simp
  simp only [checkMetadata, List.append_eq_nil_iff, hid, expect_eq_nil, Bool.not_eq_true',
    versionText_not_blank_iff, DraftMetadata.wellFormed_iff, and_assoc]

theorem utf8ByteSize_of_ascii {s : String} (h : ∀ c ∈ s.toList, c.utf8Size = 1) :
    s.utf8ByteSize = s.length := by
  have key (cs : List Char) (h : ∀ c ∈ cs, c.utf8Size = 1) : String.utf8Len cs = cs.length := by
    induction cs with
    | nil => rfl
    | cons c cs ih =>
      rw [List.forall_mem_cons] at h
      rw [String.utf8Len_cons, ih h.2, h.1, List.length_cons]
  rw [← String.length_toList, ← key _ h, ← String.utf8ByteSize_ofList, String.ofList_toList]

theorem utf8Size_of_name {c : Char} (h : Text.isIdentRest c = true ∨ c = '-') : c.utf8Size = 1 := by
  rw [Char.utf8Size_eq_one_iff, UInt32.le_iff_toNat_le]
  show c.val.toNat ≤ 127
  rcases h with h | rfl
  · simp only [Text.isIdentRest, Char.isAlphanum, Char.isAlpha, Char.isUpper, Char.isLower,
      Char.isDigit, Bool.or_eq_true, Bool.and_eq_true, decide_eq_true_eq, ge_iff_le,
      UInt32.le_iff_toNat_le] at h
    have hZ : 'Z'.val.toNat = 90 := rfl
    have hz : 'z'.val.toNat = 122 := rfl
    have h9 : '9'.val.toNat = 57 := rfl
    rcases h with h | rfl
    · omega
    · decide
  · decide

theorem isFunctionName_iff {s : String} : isFunctionName s = true ↔
    s ≠ "" ∧ s.length ≤ maxNameLength ∧
      ∀ c ∈ s.toList, Text.isIdentRest c = true ∨ c = '-' := by
  simp only [isFunctionName, Bool.and_eq_true, Bool.not_eq_true', decide_eq_true_eq, and_assoc,
    List.all_eq_true, Bool.or_eq_true]
  refine and_congr (by simp) (and_congr_left fun hall => ?_)
  rw [utf8ByteSize_of_ascii fun c hc => utf8Size_of_name (hall c hc)]

theorem checkMembers_eq_nil {type : ParamType} {vs : List Json} (i : Nat) :
    checkMembers location type i vs = [] ↔ ∀ v ∈ vs, type.accepts v = true := by
  induction vs generalizing i with
  | nil => simp [checkMembers]
  | cons v vs ih => simp [checkMembers, ih]

theorem checkTyped_eq_nil {p : DraftParameter} {type : ParamType} :
    checkTyped location p type = [] ↔ p.Typed type := by
  rw [DraftParameter.typed_iff, checkTyped]
  cases p.default <;> cases p.allowed <;> simp [checkMembers_eq_nil]

theorem checkParameter_eq_nil {p : DraftParameter} :
    checkParameter location p = [] ↔ p.WellFormed := by
  rw [DraftParameter.wellFormed_iff, checkParameter]
  cases ParamType.parse? p.type with
  | none => simp
  | some type => cases p.default <;> simp [checkTyped_eq_nil]

def Fresh {α : Type} (seen xs : List α) : Prop := xs.Nodup ∧ ∀ x ∈ xs, x ∉ seen

section Fresh

variable {α : Type} {x : α} {seen xs ys : List α}

theorem fresh_nil : Fresh seen [] := by simp [Fresh]

theorem fresh_iff_nodup : Fresh [] xs ↔ xs.Nodup := by simp [Fresh]

theorem fresh_append : Fresh seen (xs ++ ys) ↔ Fresh seen xs ∧ Fresh (xs ++ seen) ys := by
  simp only [Fresh, List.nodup_append, List.mem_append, not_or]
  constructor
  · rintro ⟨⟨hx, hy, hxy⟩, h⟩
    exact ⟨⟨hx, fun x hm => h x (.inl hm)⟩, hy,
      fun y hm => ⟨fun hm' => hxy y hm' y hm rfl, h y (.inr hm)⟩⟩
  · rintro ⟨⟨hx, hs⟩, hy, h⟩
    refine ⟨⟨hx, hy, ?_⟩, ?_⟩
    · rintro x hm y hm' rfl
      exact (h x hm').1 hm
    · rintro x (hm | hm)
      · exact hs x hm
      · exact (h x hm).2

theorem fresh_cons : Fresh seen (x :: xs) ↔ x ∉ seen ∧ Fresh (x :: seen) xs := by
  rw [← List.singleton_append, fresh_append]
  simp [Fresh]

end Fresh

theorem checkParameters_eq_nil {ps : List DraftParameter} (i : Nat) (seen : List String) :
    checkParameters location i seen ps = [] ↔
      (∀ p ∈ ps, p.WellFormed) ∧ Fresh seen (ps.map (·.name)) := by
  induction ps generalizing i seen with
  | nil => simp [checkParameters, fresh_nil]
  | cons p ps ih =>
    simp only [checkParameters, List.append_eq_nil_iff, expect_eq_nil, checkParameter_eq_nil, ih,
      List.forall_mem_cons, List.map_cons, fresh_cons, decide_eq_true_eq]
    tauto

theorem names_checkedParameters {ps : List DraftParameter} (h : ∀ p ∈ ps, p.WellFormed) (i : Nat) :
    (checkedParameters location i ps).map (·.name) = ps.map (·.name) := by
  induction ps generalizing i with
  | nil => rfl
  | cons p ps ih =>
    rw [List.forall_mem_cons] at h
    obtain ⟨type, ht, -⟩ := h.1.type
    have hp : checkParameter (item location "parameters" i) p = [] := checkParameter_eq_nil.2 h.1
    simp [checkedParameters, DraftParameter.checked?, hp, ht, ih h.2]

theorem checkPlaceholders_eq_nil {names : List String} :
    checkPlaceholders location declared names = [] ↔
      ∀ n ∈ names, n ∈ declared ∨ n ∈ reservedRoots := by
  simp [checkPlaceholders, or_iff_not_imp_left]

theorem checkValidations_eq_nil {ss : List String} (i : Nat) :
    checkValidations location declared i ss = [] ↔
      ∀ s ∈ ss, Text.blank s = false ∧ Declares declared s := by
  induction ss generalizing i with
  | nil => simp [checkValidations]
  | cons s ss ih => simp [checkValidations, checkPlaceholders_eq_nil, ih, Declares, and_assoc]

theorem checkTarget_eq_nil {target : String} :
    checkTarget location target = [] ↔ IsTarget target := by
  have hbad (ss : List String) : (ss.any fun s => s.isEmpty || s.toList.any Text.isBlank) = false ↔
      ∀ s ∈ ss, s ≠ "" ∧ ∀ c ∈ s.toList, Text.isBlank c = false := by
    simp [List.any_eq_false]
  unfold checkTarget IsTarget
  dsimp only
  split
  · next h =>
    obtain rfl := String.isEmpty_iff.1 h
    have hsplit : Text.split '.' "" = [""] := rfl
    simp [hsplit]
  split
  · next h =>
    simp only [reduceCtorEq, false_iff]
    rintro ⟨root, rest, hsplit, -, hall, -⟩
    rw [hsplit, (hbad _).2 hall] at h
    cases h
  · next h =>
    rw [Bool.not_eq_true, hbad] at h
    split
    · next root second rest hsplit =>
      rw [expect_eq_nil, Bool.or_eq_true, List.contains_iff_mem, decide_eq_true_eq]
      constructor
      · exact fun hroot => ⟨root, second :: rest, hsplit, by simp, hsplit ▸ h, hroot⟩
      · rintro ⟨_, _, hsplit', -, -, hroot⟩
        rw [hsplit] at hsplit'
        cases hsplit'
        exact hroot
    · next hshort =>
      simp only [reduceCtorEq, false_iff]
      rintro ⟨root, rest, hsplit, hrest, -⟩
      obtain ⟨second, rest, rfl⟩ := List.exists_cons_of_ne_nil hrest
      exact hshort _ _ _ hsplit

theorem checkEffect_eq_nil {e : DraftEffect} :
    checkEffect location declared e = [] ↔ e.WellFormed declared := by
  have hvalue : (∀ n ∈ Template.valuePlaceholders e.value, n ∈ declared ∨ n ∈ reservedRoots) ↔
      ∀ s, HoldsText s e.value → Declares declared s := by
    simp only [Template.mem_valuePlaceholders, Declares]
    exact ⟨fun h s hs n hn => h n ⟨s, hs, hn⟩, fun h n ⟨s, hs, hn⟩ => h s hs n hn⟩
  simp only [checkEffect, List.append_eq_nil_iff, checkTarget_eq_nil, checkPlaceholders_eq_nil,
    expect_eq_nil, hvalue, Option.isSome_iff_exists, DraftEffect.wellFormed_iff, and_assoc]
  rfl

theorem checkEffects_eq_nil {es : List DraftEffect} (i : Nat) :
    checkEffects location declared i es = [] ↔ ∀ e ∈ es, e.WellFormed declared := by
  induction es generalizing i with
  | nil => simp [checkEffects]
  | cons e es ih => simp [checkEffects, checkEffect_eq_nil, ih]

theorem checkFunction_eq_nil {f : DraftFunction} :
    checkFunction location f = [] ↔ f.WellFormed := by
  simp only [checkFunction, List.append_eq_nil_iff, expect_eq_nil, Bool.not_eq_true',
    isFunctionName_iff, checkParameters_eq_nil, checkValidations_eq_nil, checkEffects_eq_nil,
    fresh_iff_nodup]
  constructor
  · rintro ⟨⟨⟨⟨hid, hname⟩, hps, hdistinct⟩, hvalid⟩, heffects⟩
    rw [names_checkedParameters hps] at hvalid heffects
    exact ⟨hid, hname, hps, hdistinct, hvalid, heffects⟩
  · intro h
    rw [names_checkedParameters h.parameters]
    exact ⟨⟨⟨⟨h.id, h.name⟩, h.parameters, h.parametersDistinct⟩, h.validations⟩, h.effects⟩

theorem ne_empty_of_not_blank {s : String} (h : Text.blank s = false) : s.isEmpty = false := by
  rw [Bool.eq_false_iff]
  intro he
  rw [String.isEmpty_iff.1 he] at h
  cases h

theorem checkFunctions_eq_nil {fs : List DraftFunction} {phase : String} (i : Nat)
    (ids names : List String) : checkFunctions location phase i ids names fs = [] ↔
      (∀ f ∈ fs, f.WellFormed) ∧ Fresh ids (fs.map (·.id)) ∧ Fresh names (fs.map (·.name)) := by
  induction fs generalizing i ids names with
  | nil => simp [checkFunctions, fresh_nil]
  | cons f fs ih =>
    simp only [checkFunctions, List.append_eq_nil_iff, expect_eq_nil, checkFunction_eq_nil, ih,
      List.forall_mem_cons, List.map_cons, fresh_cons, Bool.or_eq_true, decide_eq_true_eq]
    constructor
    · rintro ⟨⟨⟨hid, hname⟩, hf⟩, hfs, hids, hnames⟩
      refine ⟨⟨hf, hfs⟩, ⟨?_, hids⟩, ?_, hnames⟩
      · exact hid.resolve_left (by simp [ne_empty_of_not_blank hf.id])
      · exact hname.resolve_left (by simp [hf.name.1])
    · rintro ⟨⟨hf, hfs⟩, ⟨hid, hids⟩, hname, hnames⟩
      exact ⟨⟨⟨.inr hid, .inr hname⟩, hf⟩, hfs, hids, hnames⟩

theorem checkPhases_eq_nil {entries : Fields (List DraftFunction)} (ids : List String)
    (seen : List Phase) : checkPhases ids seen entries = [] ↔
      (∀ entry ∈ entries, ∃ p, Phase.parse? entry.1 = some p) ∧
      Fresh (seen.map some) (entries.map fun entry => Phase.parse? entry.1) ∧
      (∀ entry ∈ entries, ∀ f ∈ entry.2, f.WellFormed) ∧
      Fresh ids (entries.flatMap fun entry => entry.2.map (·.id)) ∧
      ∀ entry ∈ entries, (entry.2.map (·.name)).Nodup := by
  induction entries generalizing ids seen with
  | nil => simp [checkPhases, fresh_nil]
  | cons entry rest ih =>
    obtain ⟨name, fs⟩ := entry
    simp only [checkPhases, List.forall_mem_cons, List.map_cons, List.flatMap_cons, fresh_cons,
      fresh_append]
    cases hp : Phase.parse? name with
    | none => simp
    | some p =>
      have hseen : some p ∉ seen.map some ↔ p ∉ seen := by simp
      simp only [List.append_eq_nil_iff, expect_eq_nil, checkFunctions_eq_nil, ih,
        fresh_iff_nodup, decide_eq_true_eq, List.map_cons, hseen, Option.some.injEq, exists_eq',
        true_and]
      constructor
      · rintro ⟨⟨⟨hfs, hids, hnames⟩, hnew⟩, hps, hdistinct, hrest, hfresh, hall⟩
        exact ⟨hps, ⟨hnew, hdistinct⟩, ⟨hfs, hrest⟩, ⟨hids, hfresh⟩, hnames, hall⟩
      · rintro ⟨hps, ⟨hnew, hdistinct⟩, ⟨hfs, hrest⟩, ⟨hids, hfresh⟩, hnames, hall⟩
        exact ⟨⟨⟨hfs, hids, hnames⟩, hnew⟩, hps, hdistinct, hrest, hfresh, hall⟩

theorem checkPrompts_eq_nil {prompts : Fields String} :
    checkPrompts prompts = [] ↔ ∀ entry ∈ prompts, ∃ p, Phase.parse? entry.1 = some p := by
  simp [checkPrompts, List.flatMap_eq_nil_iff, Option.isSome_iff_exists]

theorem violations_eq_nil {d : Draft} : d.violations = [] ↔ d.WellFormed := by
  simp only [Draft.violations, List.append_eq_nil_iff, checkMetadata_eq_nil, checkPhases_eq_nil,
    checkPrompts_eq_nil, List.map_nil, fresh_iff_nodup, Draft.wellFormed_iff, and_assoc]

theorem loadAs_eq_ok {f : Format} {bytes : ByteArray} {doc : Document} :
    loadAs f bytes = .ok doc ↔
      ∃ d, f.draft? bytes = some d ∧ d.WellFormed ∧ d.document = doc := by
  unfold loadAs Draft.validate
  cases f.draft? bytes with
  | none => simp
  | some d =>
    simp only [Option.some.injEq, ↓existsAndEq, true_and]
    by_cases h : d.WellFormed
    · have hnil := violations_eq_nil.2 h
      simp [hnil, h]
    · have hsome : d.violations ≠ [] := fun hv => h (violations_eq_nil.1 hv)
      simp [hsome, h]

/-- A document is loaded exactly if its text gives a draft and that is well-formed. -/
theorem load_succeeds_iff (f : Format) (bytes : ByteArray) :
    (∃ doc, loadAs f bytes = .ok doc) ↔ ∃ d, f.draft? bytes = some d ∧ d.WellFormed := by
  simp only [loadAs_eq_ok]
  exact ⟨fun ⟨_, d, hd, hw, _⟩ => ⟨d, hd, hw⟩, fun ⟨d, hd, hw⟩ => ⟨_, d, hd, hw, rfl⟩⟩

def shrineText (name : String) : String :=
  "\x7b\"metadata\":\x7b\"id\":\"shrine\",\"name\":\"Shrine\",\"version\":2\x7d,
   \"functionsByPhase\":\x7b\"Rest\":[\x7b\"id\":\"give\",\"name\":\"give\",
   \"parameters\":[\x7b\"name\":\"gift\",\"type\":\"String\",\"enum\":[\"oil\",\"salt\"]\x7d],
   \"effects\":[\x7b\"target\":\"gameState.altar\",\"operation\":\"append\",
   \"value\":[\"\x7b" ++ name ++ "\x7d\"]\x7d]\x7d]\x7d\x7d"

theorem load_succeeds_iff_shrine :
    (∃ d, Format.json.draft? (shrineText "gift").toUTF8 = some d ∧ d.WellFormed) ∧
    loadAs .json (shrineText "giver").toUTF8 =
      .error [⟨"functionsByPhase.Rest[0].effects[0].value", .undeclared "giver"⟩] ∧
    ∀ d, Format.json.draft? (shrineText "giver").toUTF8 = some d → ¬d.WellFormed := by
  have hload : (loadAs .json (shrineText "gift").toUTF8).isOk = true := by decide +kernel
  have hfail : error? (loadAs .json (shrineText "giver").toUTF8) =
      some [⟨"functionsByPhase.Rest[0].effects[0].value", .undeclared "giver"⟩] := by
    decide +kernel
  have herror := error?_eq_some.1 hfail
  refine ⟨(load_succeeds_iff .json _).1 (isOk_iff.1 hload), herror, fun d hd hw => ?_⟩
  obtain ⟨doc, hdoc⟩ := (load_succeeds_iff .json _).2 ⟨d, hd, hw⟩
  cases herror.symm.trans hdoc

end Rulebook.Ruleset
