import Rulebook.Call.Invocation
import Rulebook.Proofs.Acceptance
import Rulebook.Proofs.Except
import Rulebook.Proofs.Fields

namespace Rulebook.Ruleset

open Template (HoldsText)

namespace PhaseMap

variable {α : Type}

theorem get?_cons (p q : Phase) (v : α) (m : PhaseMap α) :
    get? ((q, v) :: m) p = if p = q then some v else get? m p := by
  by_cases h : p = q
  · subst h
    simp [get?, List.lookup]
  · have hb : (p == q) = false := by simpa using h
    simp [get?, List.lookup, h, hb]

theorem get?_insert (p q : Phase) (v : α) (m : PhaseMap α) :
    get? (insert p v m) q = if q = p then some v else get? m q := by
  induction m with
  | nil => simp [insert, get?_cons]
  | cons e m ih =>
    obtain ⟨r, w⟩ := e
    by_cases hlt : p.rank < r.rank
    · simp [insert, hlt, get?_cons]
    · by_cases he : p = r
      · subst he
        by_cases hq : q = p <;> simp [insert, get?_cons, hq]
      · by_cases hq : q = r
        · simp [insert, hlt, he, get?_cons, hq, Ne.symm he]
        · simp [insert, hlt, he, get?_cons, hq, ih]

theorem mem_phases_of_get? {m : PhaseMap α} {p : Phase} {v : α} (h : get? m p = some v) :
    p ∈ m.phases := by
  induction m with
  | nil => cases h
  | cons e m ih =>
    rw [get?_cons] at h
    split at h
    · next he => simp [phases, he]
    · exact List.mem_cons_of_mem _ (ih h)

end PhaseMap

theorem byPhase_append {α β : Type} (read : String → α → β) (entries : Fields α) (name : String)
    (a : α) : byPhase read (entries ++ [(name, a)]) =
      match Phase.parse? name with
      | some p => PhaseMap.insert p (read name a) (byPhase read entries)
      | none => byPhase read entries := by
  cases hp : Phase.parse? name <;> simp [byPhase, hp]

theorem mem_of_byPhase {α β : Type} (read : String → α → β) {entries : Fields α} {p : Phase} {v : β}
    (h : PhaseMap.get? (byPhase read entries) p = some v) :
    ∃ entry ∈ entries, Phase.parse? entry.1 = some p ∧ read entry.1 entry.2 = v := by
  induction entries using List.reverseRecOn with
  | nil => cases h
  | append_singleton entries entry ih =>
    obtain ⟨name, a⟩ := entry
    rw [byPhase_append] at h
    have hbefore (h : PhaseMap.get? (byPhase read entries) p = some v) :
        ∃ e ∈ entries ++ [(name, a)], Phase.parse? e.1 = some p ∧ read e.1 e.2 = v := by
      obtain ⟨e, he, hp⟩ := ih h
      exact ⟨e, List.mem_append_left _ he, hp⟩
    cases hq : Phase.parse? name with
    | none =>
      rw [hq] at h
      exact hbefore h
    | some q =>
      rw [hq] at h
      simp only [PhaseMap.get?_insert] at h
      split at h
      · next hpq => exact ⟨(name, a), by simp, hpq ▸ hq, Option.some.inj h⟩
      · exact hbefore h

theorem mem_functionsOf {d : Document} {p : Phase} {fn : Function} :
    fn ∈ d.functionsOf p ↔ ∃ fs, PhaseMap.get? d.functions p = some fs ∧ fn ∈ fs := by
  unfold Document.functionsOf
  cases PhaseMap.get? d.functions p <;> simp

theorem mem_checkedFunctions {location : String} {fs : List DraftFunction} {fn : Function} {i : Nat}
    (h : fn ∈ checkedFunctions location i fs) :
    ∃ f ∈ fs, ∃ here, f.checked? here = some fn := by
  induction fs generalizing i with
  | nil => cases h
  | cons f fs ih =>
    rcases List.mem_append.1 h with h | h
    · exact ⟨f, by simp, _, by simpa using h⟩
    · obtain ⟨g, hg, hc⟩ := ih h
      exact ⟨g, List.mem_cons_of_mem _ hg, hc⟩

def Function.parameterNames (f : Function) : List String := f.parameters.map (·.name)

structure Function.Sound (f : Function) : Prop where
  validations : ∀ s ∈ f.validations, Declares f.parameterNames s
  targets : ∀ e ∈ f.effects, IsTarget e.target ∧ Declares f.parameterNames e.target
  values : ∀ e ∈ f.effects, ∀ s, HoldsText s e.value → Declares f.parameterNames s

theorem sound_of_checked? {f : DraftFunction} {fn : Function} {here : String}
    (h : f.checked? here = some fn) : fn.Sound := by
  unfold DraftFunction.checked? at h
  split at h
  · next hc =>
    cases h
    have hw : f.WellFormed := checkFunction_eq_nil.1 (List.isEmpty_iff.1 hc)
    have hnames : (checkedParameters here 0 f.parameters).map (·.name) = f.parameterNames :=
      names_checkedParameters hw.parameters 0
    have heffect (e : EffectSpec) (he : e ∈ f.effects.filterMap DraftEffect.checked?) :
        ∃ d ∈ f.effects, d.target = e.target ∧ d.value = e.value := by
      obtain ⟨d, hd, hde⟩ := List.mem_filterMap.1 he
      obtain ⟨op, -, rfl⟩ := Option.map_eq_some_iff.1 hde
      exact ⟨d, hd, rfl, rfl⟩
    refine ⟨fun s hs => ?_, fun e he => ?_, fun e he s hs => ?_⟩
    · rw [Function.parameterNames, hnames]
      exact (hw.validations s hs).2
    · rw [Function.parameterNames, hnames]
      obtain ⟨d, hd, ht, -⟩ := heffect e he
      exact ht ▸ ⟨(hw.effects d hd).target, (hw.effects d hd).targetDeclares⟩
    · rw [Function.parameterNames, hnames]
      obtain ⟨d, hd, -, hv⟩ := heffect e he
      exact (hw.effects d hd).valueDeclares s (hv ▸ hs)
  · cases h

/-- Every function of a loaded document passed its checks. -/
theorem sound_of_load {format : Format} {bytes : ByteArray} {d : Document} {p : Phase}
    {fn : Function} (h : loadAs format bytes = .ok d) (hfn : fn ∈ d.functionsOf p) : fn.Sound := by
  obtain ⟨draft, -, -, rfl⟩ := loadAs_eq_ok.1 h
  obtain ⟨fs, hfs, hm⟩ := mem_functionsOf.1 hfn
  obtain ⟨entry, -, -, rfl⟩ :=
    mem_of_byPhase (fun name => checkedFunctions (phaseLocation name) 0) hfs
  obtain ⟨f, -, here, hc⟩ := mem_checkedFunctions hm
  exact sound_of_checked? hc

def campText : String :=
  "\x7b\"metadata\":\x7b\"id\":\"camp\",\"name\":\"Camp\",\"version\":\"1\"\x7d,
   \"functionsByPhase\":\x7b\"rest\":[\x7b\"id\":\"f\",\"name\":\"f\",
   \"parameters\":[\x7b\"name\":\"n\",\"type\":\"string\"\x7d],
   \"ruleValidations\":[\"'\x7bn\x7d' ~= ''\"],\"effects\":[
   \x7b\"target\":\"character.\x7bn\x7d\",\"operation\":\"set\",\"value\":[\"\x7bn\x7d\"]\x7d,
   \x7b\"target\":\"gameState.day\",\"operation\":\"add\",\"value\":1\x7d,
   \x7b\"target\":\"char\x7bacter.hp\",\"operation\":\"set\"\x7d]\x7d]\x7d\x7d"

def campFunction : Function where
  id := "f"
  name := "f"
  description := ""
  parameters := [⟨"n", .string, false, "", none, none⟩]
  validations := ["'\x7bn\x7d' ~= ''"]
  effects := [⟨"character.\x7bn\x7d", .set, .arr [.str "\x7bn\x7d"]⟩,
    ⟨"gameState.day", .add, .int 1⟩, ⟨"char\x7bacter.hp", .set, .null⟩]

def Document.isCamp (d : Document) : Bool :=
  match d.functionsOf .rest with
  | [⟨"f", "f", "", [⟨"n", .string, false, "", none, none⟩], ["'\x7bn\x7d' ~= ''"],
      [⟨"character.\x7bn\x7d", .set, .arr [.str "\x7bn\x7d"]⟩, ⟨"gameState.day", .add, .int 1⟩,
        ⟨"char\x7bacter.hp", .set, .null⟩]⟩] => true
  | _ => false

theorem functionsOf_of_isCamp {d : Document} (h : d.isCamp = true) :
    d.functionsOf .rest = [campFunction] := by
  unfold Document.isCamp at h
  split at h
  · next hf => exact hf
  · cases h

theorem load_camp :
    ∃ d, loadAs .json campText.toUTF8 = .ok d ∧ d.functionsOf .rest = [campFunction] := by
  have h : (loadAs .json campText.toUTF8).toOption.any Document.isCamp = true := by decide +kernel
  obtain ⟨d, hd, hcamp⟩ := exists_of_toOption_any h
  exact ⟨d, hd, functionsOf_of_isCamp hcamp⟩

end Rulebook.Ruleset

namespace Rulebook.Text

theorem pieces_head {sep : Char} {cs p : List Char} {ps : List (List Char)}
    (h : pieces sep cs = p :: ps) : p = cs.takeWhile (· != sep) := by
  induction cs generalizing p ps with
  | nil =>
    cases h
    rfl
  | cons c cs ih =>
    rw [pieces] at h
    by_cases hc : c = sep
    · rw [if_pos hc] at h
      cases h
      simp [hc]
    · rw [if_neg hc] at h
      split at h
      · next hn =>
        cases cs with
        | nil => cases hn
        | cons d cs =>
          rw [pieces] at hn
          split at hn
          · cases hn
          · split at hn <;> cases hn
      · next q qs hq =>
        cases h
        simp [hc, ih hq]

end Rulebook.Text

namespace Rulebook.Call

open Ruleset

theorem rootOf_of_split {target root : String} {rest : List String}
    (h : Text.split '.' target = root :: rest) : rootOf target = root := by
  rw [Text.split] at h
  obtain ⟨p, ps, hp, rfl, -⟩ := List.map_eq_cons_iff.1 h
  rw [rootOf, Text.pieces_head hp]

def KnownRoot (roots : List String) (target : String) : Prop :=
  '\x7b' ∈ (rootOf target).toList ∨ rootOf target ∈ roots

theorem knownRoot_of_isTarget {target : String} (h : IsTarget target) :
    KnownRoot stateRoots target := by
  obtain ⟨root, rest, hsplit, -, -, hroot⟩ := h
  rwa [KnownRoot, rootOf_of_split hsplit]

variable {roots : List String}

theorem unknownRoots_eq_nil {location : String} {es : List EffectSpec} (i : Nat) :
    unknownRoots roots location i es = [] ↔ ∀ e ∈ es, KnownRoot roots e.target := by
  induction es generalizing i with
  | nil => simp [unknownRoots]
  | cons e es ih => simp [unknownRoots, ih, KnownRoot]

theorem unknownRootsOf_eq_nil (location : String) {fs : List Function} (i : Nat) :
    unknownRootsOf roots location i fs = [] ↔
      ∀ f ∈ fs, ∀ e ∈ f.effects, KnownRoot roots e.target := by
  induction fs generalizing i with
  | nil => simp [unknownRootsOf]
  | cons f fs ih => simp [unknownRootsOf, unknownRoots_eq_nil, ih]

theorem callables_eq_ok {d : Document} {p : Phase} {cs : List Callable} :
    callables roots d p = .ok cs ↔
      (∀ f ∈ d.functionsOf p, ∀ e ∈ f.effects, KnownRoot roots e.target) ∧
        (d.functionsOf p).map (fun f => ⟨f, p, d⟩) = cs := by
  rw [← unknownRootsOf_eq_nil (phaseLocation p.name) 0, callables]
  split
  · next h => simp [List.isEmpty_iff.1 h]
  · next h => simp [mt List.isEmpty_iff.2 h]

theorem go_eq_ok {d : Document} {ps : List Phase} {all : PhaseMap (List Callable)} :
    allCallables.go roots d ps = .ok all ↔
      List.Forall₂ (fun p entry => entry.1 = p ∧ callables roots d p = .ok entry.2) ps all := by
  induction ps generalizing all with
  | nil => cases all <;> simp [allCallables.go]
  | cons p ps ih =>
    rw [allCallables.go, List.forall₂_cons_left_iff]
    cases hp : callables roots d p with
    | error vs => cases allCallables.go roots d ps <;> simp
    | ok cs =>
      cases hps : allCallables.go roots d ps with
      | error vs =>
        simp only [reduceCtorEq, false_iff, not_exists, not_and]
        rintro _ rest - hrest -
        cases hps.symm.trans (ih.2 hrest)
      | ok rest =>
        simp only [Except.ok.injEq]
        constructor
        · rintro rfl
          exact ⟨_, rest, ⟨rfl, rfl⟩, ih.1 hps, rfl⟩
        · rintro ⟨⟨_, _⟩, rest', ⟨rfl, rfl⟩, hrest, rfl⟩
          cases hps.symm.trans (ih.2 hrest)
          rfl

/-- A document has callables exactly if every root that its effects name is known, and then each
function has one, in order. -/
theorem allCallables_eq_ok {d : Document} {all : PhaseMap (List Callable)} :
    allCallables roots d = .ok all ↔
      (∀ p ∈ d.phases, ∀ f ∈ d.functionsOf p, ∀ e ∈ f.effects, KnownRoot roots e.target) ∧
        d.phases.map (fun p => (p, (d.functionsOf p).map fun f => ⟨f, p, d⟩)) = all := by
  rw [allCallables, go_eq_ok]
  induction d.phases generalizing all with
  | nil => cases all <;> simp
  | cons p ps ih =>
    rw [List.forall₂_cons_left_iff, List.forall_mem_cons, List.map_cons]
    constructor
    · rintro ⟨⟨q, cs⟩, rest, ⟨hq, hcs⟩, hrest, rfl⟩
      obtain rfl : q = p := hq
      obtain ⟨hp, rfl⟩ := callables_eq_ok.1 hcs
      obtain ⟨hps, rfl⟩ := ih.1 hrest
      exact ⟨⟨hp, hps⟩, rfl⟩
    · rintro ⟨⟨hp, hps⟩, rfl⟩
      exact ⟨_, _, ⟨rfl, callables_eq_ok.2 ⟨hp, rfl⟩⟩, ih.2 ⟨hps, rfl⟩, rfl⟩

theorem allCallables_of_load {format : Format} {bytes : ByteArray} {d : Document}
    {store : State.Store} (hload : loadAs format bytes = .ok d)
    (hroots : ∀ root ∈ stateRoots, store.hasRoot root = true) :
    allCallables store.names d =
      .ok (d.phases.map fun p => (p, (d.functionsOf p).map fun fn => ⟨fn, p, d⟩)) := by
  have hnames : ∀ root ∈ stateRoots, root ∈ store.names := fun root hr =>
    Fields.mem_names.2 (Fields.has_iff.1 (hroots root hr))
  refine allCallables_eq_ok.2 ⟨fun p _ fn hfn e he => ?_, rfl⟩
  exact (knownRoot_of_isTarget ((sound_of_load hload hfn).targets e he).1).imp_right (hnames _)

end Rulebook.Call
