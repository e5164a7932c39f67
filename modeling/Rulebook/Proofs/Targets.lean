import Rulebook.Proofs.Placeholders
import Rulebook.Proofs.Resolution

namespace Rulebook.Template

theorem placeholders_eq_nil {s : String} : placeholders s = [] ↔ Holeless s.toList := by
  simp only [List.eq_nil_iff_forall_not_mem, mem_placeholders, Holeless]

theorem fill_holeless {cs : List Char} (h : Holeless cs) (bindings : Bindings) :
    ∃ ps, (segments cs).mapM (Segment.fill bindings) = .ok ps ∧ ps.flatten = cs := by
  have hfill : ∀ seg ∈ segments cs, seg.fill bindings = .ok seg.text := by
    rintro (c | name) hm
    · rfl
    · exact absurd hm (h name)
  refine ⟨_, mapM_eq_map hfill, ?_⟩
  rw [← List.flatMap_def, segments_text]

theorem substitute_of_holeless {s : String} (h : Holeless s.toList) (bindings : Bindings) :
    substitute s bindings = .ok s := by
  obtain ⟨ps, hps, hflat⟩ := fill_holeless h bindings
  rw [substitute, hps, Except.map, hflat, String.ofList_toList]

end Rulebook.Template

namespace Rulebook.Ruleset

theorem parse_of_isTarget {target : String} (h : IsTarget target) :
    ∃ path, State.Path.parse target = .ok path ∧ path.root = Call.rootOf target := by
  obtain ⟨root, rest, hsplit, hrest, hsegments, -⟩ := h
  have hne : target.isEmpty = false := by
    rw [Bool.eq_false_iff]
    intro he
    rw [String.isEmpty_iff.1 he] at hsplit
    exact hrest (List.cons.inj hsplit).2.symm
  have hany : (root :: rest).any Text.blank = false := by
    rw [List.any_eq_false]
    intro s hs
    obtain ⟨hs, hc⟩ := hsegments s hs
    cases hl : s.toList with
    | nil => exact absurd (String.toList_eq_nil_iff.1 hl) hs
    | cons c cs => simp [Text.blank, hl, hc c (by simp [hl])]
  cases rest with
  | nil => exact absurd rfl hrest
  | cons s rest =>
    refine ⟨⟨root, s :: rest⟩, ?_, (Call.rootOf_of_split hsplit).symm⟩
    simp [State.Path.parse, hne, hsplit, hany]

theorem brace_not_mem_of_stateRoots {root : String} (h : root ∈ stateRoots) :
    '\x7b' ∉ root.toList := by
  revert root
  decide

end Rulebook.Ruleset

namespace Rulebook.Call

open Ruleset

/-- The target of an effect is right for all calls: effects may write its root, it is a path, and
whatever the arguments, the effect is resolved if its value is. -/
structure Settled (store : State.Store) (e : EffectSpec) : Prop where
  writable : rootOf e.target ∈ stateRoots
  resolves : ∃ path, State.Path.parse e.target = .ok path ∧ path.root = rootOf e.target ∧
    store.hasRoot path.root = true ∧ ∀ arguments, resolveEffect store arguments e =
      (structural (Template.resolve arguments e.value)).map (⟨path, e.operation, ·⟩)

theorem resolveEffect_of_holeless {e : EffectSpec} {path : State.Path}
    (h : Template.Holeless e.target.toList) (hp : State.Path.parse e.target = .ok path)
    (store : State.Store) (arguments : Fields Json) :
    resolveEffect store arguments e =
      (structural (Template.resolve arguments e.value) >>= fun value =>
        if store.hasRoot path.root then .ok ⟨path, e.operation, value⟩
        else fail .application (State.Fault.unknownRoot path.root).message []) := by
  rw [resolveEffect, Template.substitute_of_holeless h]
  simp only [structural, ok_bind, hp]

variable {store : State.Store} {e : EffectSpec}

theorem known_iff_no_brace (hwritable : KnownRoot stateRoots e.target)
    (hknown : KnownRoot store.names e.target) :
    (rootOf e.target ∈ stateRoots ∧ store.hasRoot (rootOf e.target) = true) ↔
      '\x7b' ∉ (rootOf e.target).toList := by
  constructor
  · exact fun h => brace_not_mem_of_stateRoots h.1
  · intro h
    exact ⟨hwritable.resolve_left h,
      Fields.has_iff.2 (Fields.mem_names.1 (hknown.resolve_left h))⟩

theorem knownRoot_of_allCallables {d : Document} {all : PhaseMap (List Callable)} {p : Phase}
    {fn : Function} {roots : List String} (hall : allCallables roots d = .ok all)
    (hfn : fn ∈ d.functionsOf p) (he : e ∈ fn.effects) : KnownRoot roots e.target := by
  obtain ⟨fs, hfs, -⟩ := mem_functionsOf.1 hfn
  exact (allCallables_eq_ok.1 hall).1 p (PhaseMap.mem_phases_of_get? hfs) fn hfn e he

/-- Loading and synthesis leave a root to the call exactly if it has a brace, placeholder or not.
The target without placeholders is a path in either case, and settled if its root has no brace;
otherwise the call fails unless the state happens to have a root of that name. -/
theorem literal_target_settled_iff {format : Format} {bytes : ByteArray} {d : Document}
    {all : PhaseMap (List Callable)} {p : Phase} {fn : Function}
    (hload : loadAs format bytes = .ok d) (hall : allCallables store.names d = .ok all)
    (hfn : fn ∈ d.functionsOf p) (he : e ∈ fn.effects) :
    ((rootOf e.target ∈ stateRoots ∧ store.hasRoot (rootOf e.target) = true) ↔
        '\x7b' ∉ (rootOf e.target).toList) ∧
      (Template.placeholders e.target = [] →
        (Settled store e ↔ '\x7b' ∉ (rootOf e.target).toList) ∧
        ∃ path, State.Path.parse e.target = .ok path ∧ path.root = rootOf e.target ∧
          ∀ arguments, resolveEffect store arguments e =
            (structural (Template.resolve arguments e.value) >>= fun value =>
              if store.hasRoot path.root then .ok ⟨path, e.operation, value⟩
              else fail .application (State.Fault.unknownRoot path.root).message [])) := by
  have htarget := ((sound_of_load hload hfn).targets e he).1
  have hknown := known_iff_no_brace (knownRoot_of_isTarget htarget)
    (knownRoot_of_allCallables hall hfn he)
  obtain ⟨path, hp, hroot⟩ := parse_of_isTarget htarget
  refine ⟨hknown, fun hnone => ?_⟩
  have hresolve :=
    resolveEffect_of_holeless (Template.placeholders_eq_nil.1 hnone) hp store
  refine ⟨⟨fun h => brace_not_mem_of_stateRoots h.writable, fun h => ?_⟩, path, hp, hroot, hresolve⟩
  obtain ⟨hwritable, hhas⟩ := hknown.2 h
  rw [← hroot] at hhas
  refine ⟨hwritable, path, hp, hroot, hhas, fun arguments => ?_⟩
  rw [hresolve, hhas]
  cases structural (Template.resolve arguments e.value) <;> rfl

theorem literal_target_settled_camp :
    ∃ d all, loadAs .json campText.toUTF8 = .ok d ∧
      allCallables ["character", "gameState"] d = .ok all ∧ campFunction ∈ d.functionsOf .rest ∧
      ⟨"gameState.day", .add, .int 1⟩ ∈ campFunction.effects ∧
      Settled (.withRoots ["character", "gameState"]) ⟨"gameState.day", .add, .int 1⟩ := by
  obtain ⟨d, hd, hf⟩ := load_camp
  have hfn : campFunction ∈ d.functionsOf .rest := by simp [hf]
  have he : (⟨"gameState.day", .add, .int 1⟩ : EffectSpec) ∈ campFunction.effects :=
    .tail _ (.head _)
  have hroots : ∀ root ∈ stateRoots,
      (State.Store.withRoots ["character", "gameState"]).hasRoot root = true := by decide
  have hall := allCallables_of_load hd hroots
  have hliteral : Template.placeholders "gameState.day" = [] := by decide +kernel
  have hbrace : '\x7b' ∉ (rootOf "gameState.day").toList := by decide
  exact ⟨d, _, hd, hall, hfn, he,
    ((literal_target_settled_iff hd hall hfn he).2 hliteral).1.2 hbrace⟩

/-- A brace that belongs to no placeholder gets a root past loading and synthesis. -/
theorem braced_root_unknown :
    ∃ d all, loadAs .json campText.toUTF8 = .ok d ∧
      allCallables ["character", "gameState"] d = .ok all ∧
      ∃ fn ∈ d.functionsOf .rest, ∃ e ∈ fn.effects, Template.placeholders e.target = [] ∧
        rootOf e.target ∉ stateRoots ∧ rootOf e.target ∉ ["character", "gameState"] ∧
        resolveEffect (.withRoots ["character", "gameState"]) [] e =
          fail .application (State.Fault.unknownRoot "char\x7bacter").message [] := by
  obtain ⟨d, hd, hf⟩ := load_camp
  have hroots : ∀ root ∈ stateRoots,
      (State.Store.withRoots ["character", "gameState"]).hasRoot root = true := by decide
  have hliteral : Template.placeholders "char\x7bacter.hp" = [] := by decide +kernel
  have hparse : State.Path.parse "char\x7bacter.hp" = .ok ⟨"char\x7bacter", ["hp"]⟩ := by rfl
  refine ⟨d, _, hd, allCallables_of_load hd hroots, campFunction, by simp [hf],
    ⟨"char\x7bacter.hp", .set, .null⟩, .tail _ (.tail _ (.head _)), hliteral, by decide, by decide,
    ?_⟩
  rw [resolveEffect_of_holeless (Template.placeholders_eq_nil.1 hliteral) hparse]
  rfl

end Rulebook.Call
