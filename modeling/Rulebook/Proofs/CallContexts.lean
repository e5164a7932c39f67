import Rulebook.Proofs.Invocation
import Rulebook.Proofs.Redrafting
import Rulebook.Proofs.Targets

namespace Rulebook.Template

theorem takeWhile_substitute {s t : String} {bindings : Bindings}
    (h : Holeless (s.toList.takeWhile (· != '.'))) (hs : substitute s bindings = .ok t) :
    t.toList.takeWhile (· != '.') = s.toList.takeWhile (· != '.') := by
  have hcut := List.takeWhile_append_dropWhile (p := (· != '.')) (l := s.toList)
  have hroot : ∀ c ∈ s.toList.takeWhile (· != '.'), (c != '.') = true :=
    List.all_eq_true.1 List.all_takeWhile
  obtain ⟨us, hus, hflat⟩ := fill_holeless h bindings
  obtain ⟨ps, hps, rfl⟩ := map_eq_ok.1 hs
  rw [String.toList_ofList]
  cases hrest : s.toList.dropWhile (· != '.') with
  | nil =>
    rw [hrest, List.append_nil] at hcut
    rw [← hcut, hus] at hps
    cases hps
    rw [hflat, hcut, hcut]
  | cons c rest =>
    obtain rfl : c = '.' := by
      have := List.head?_dropWhile_not (· != '.') s.toList
      rw [hrest] at this
      simpa using this
    -- The dot belongs to no placeholder, so that the two sides of it are filled in separately.
    rw [← hcut, hrest, cuts_before (by decide) (by decide) _ rest, segments_char (by decide),
      List.mapM_append, hus, ok_bind, bind_eq_ok] at hps
    obtain ⟨qs, hqs, he⟩ := hps
    cases he
    rw [List.mapM_cons, bind_eq_ok] at hqs
    obtain ⟨_, hdot, hqs⟩ := hqs
    cases hdot
    obtain ⟨vs, -, he⟩ := bind_eq_ok.1 hqs
    cases he
    rw [List.flatten_append, hflat, List.takeWhile_append_of_pos hroot]
    simp

end Rulebook.Template

namespace Rulebook.Call

open Ruleset

variable {format : Format} {bytes : ByteArray} {d : Document} {p : Phase} {fn : Function}
  {store : State.Store} {args arguments gameData : Fields Json} {r : Resolved}
  {batch : State.Batch} {name : String}

/-- The rules of a call are evaluated in this context, all of them, and in no other. -/
structure EvaluatedIn (c : Callable) (args : Fields Json) (store : State.Store) (r : Resolved)
    (seen : Fields Json) : Prop where
  succeeds_iff : ∀ evaluate : Evaluator, (c.invoke evaluate args store).1.outcome.success = true ↔
    (∀ rule ∈ r.validations, Rule.isSafe rule = true) ∧
    (∀ rule ∈ r.validations, ∃ v, evaluate rule seen = .ok v ∧ v.truthy = true) ∧
    ∃ final applied, store.writes r.effects = some (final, applied)
  only : ∀ evaluate evaluate' : Evaluator,
    (∀ rule ∈ r.validations, evaluate' rule seen = evaluate rule seen) →
      c.invoke evaluate' args store = c.invoke evaluate args store

theorem evaluatedIn_context (hr : Resolves store fn args r)
    (hb : store.begin (State.rootsOf r.effects) = .ok batch) :
    EvaluatedIn ⟨fn, p, d⟩ args store r (context store d.gameData batch r.arguments) := by
  have hunique (r' : Resolved) (batch' : State.Batch) (h : Reaches store fn args r' batch') :
      r' = r ∧ batch' = batch := by
    have he : r' = r := Except.ok.inj ((resolve_eq_ok.2 h.resolved).symm.trans (resolve_eq_ok.2 hr))
    subst he
    exact ⟨rfl, Except.ok.inj (h.begun.symm.trans hb)⟩
  refine ⟨fun evaluate => ⟨fun hsuccess => ?_, ?_⟩, fun evaluate evaluate' hsame => ?_⟩
  · by_cases hg : ∃ r batch final applied,
        Granted ⟨fn, p, d⟩ evaluate args store r batch final applied
    · obtain ⟨r', batch', final, applied, h⟩ := hg
      obtain ⟨rfl, rfl⟩ := hunique r' batch' h.reached
      exact ⟨h.reached.safe, h.satisfied, final, applied, h.written⟩
    · have hfails := (invoke_of_not_granted hg).1
      cases hfails.symm.trans hsuccess
  · rintro ⟨hsafe, hsatisfied, final, applied, hwritten⟩
    obtain ⟨b', -, he⟩ := invoke_of_granted (c := ⟨fn, p, d⟩)
      ⟨⟨hr, hsafe, hb⟩, hsatisfied, hwritten⟩
    rw [he]
    rfl
  · refine invoke_congr fun r' batch' h => ?_
    obtain ⟨rfl, rfl⟩ := hunique r' batch' h
    exact hsame

theorem begin_of_resolves (hr : Resolves store fn args r) :
    ∃ batch, store.begin (State.rootsOf r.effects) = .ok batch := by
  refine State.Store.begin_ok fun root hroot => ?_
  obtain ⟨e, he, rfl⟩ := List.mem_map.1 (mem_sortedNames.1 hroot)
  obtain ⟨spec, -, hfills⟩ := forall₂_mem hr.effects.flip he
  exact hfills.root

/-- Where the call writes a root, that root is what the rules see under its name. -/
theorem get?_context (hm : batch.Mirrors store store) (gameData arguments : Fields Json)
    (name : String) :
    Fields.get? (context store gameData batch arguments) name =
      if name ∈ batch.roots then store.readRoot? name
      else if name = "gameData" then some (.obj gameData)
      else if name ∈ stateRoots then (store.readRoot? name).or (arguments.get? name)
      else arguments.get? name := by
  rw [context, Fields.get?_readInto, Fields.get?_insert, Fields.get?_readInto]
  by_cases hroot : name ∈ batch.roots
  · obtain ⟨v, hv⟩ := State.Batch.mem_roots_iff.1 hroot
    rw [if_pos hroot, if_pos hroot, ← hm.inside name hroot, hv, Option.some_or]
  · simp [hroot]

theorem stateRoots_subset : ∀ root ∈ stateRoots, root ∈ contextNames := by decide

theorem parameterName_of_load (hload : loadAs format bytes = .ok d) (hfn : fn ∈ d.functionsOf p)
    (hname : name ∈ fn.parameterNames) : Text.isIdent name = true ∧ name ∉ contextNames := by
  obtain ⟨q, hq, rfl⟩ := List.mem_map.1 hname
  have hw := (wellFormed_of_load hload hfn).parameters q.draft (List.mem_map_of_mem hq)
  exact ⟨hw.name, hw.noRoot⟩

theorem brace_not_mem_of_isIdent (h : Text.isIdent name = true) : '\x7b' ∉ name.toList := by
  intro hm
  unfold Text.isIdent at h
  split at h
  · next he =>
    rw [he] at hm
    cases hm
  · next c cs he =>
    rw [he] at hm
    rw [Bool.and_eq_true, List.all_eq_true] at h
    rcases List.mem_cons.1 hm with rfl | hm
    · exact absurd h.1 (by decide)
    · exact absurd (h.2 _ hm) (by decide)

theorem root_of_parse {target : String} {path : State.Path}
    (h : State.Path.parse target = .ok path) : path.root = rootOf target := by
  unfold State.Path.parse at h
  split at h
  · cases h
  · simp only at h
    split at h
    · cases h
    · split at h
      · next root s rest hsplit =>
        cases h
        exact (rootOf_of_split hsplit).symm
      · cases h

theorem root_of_literal {spec : EffectSpec} {e : State.Effect}
    (h : Template.placeholders (rootOf spec.target) = [])
    (he : resolveEffect store arguments spec = .ok e) : e.target.root = rootOf spec.target := by
  obtain ⟨text, ht, hparse⟩ := (resolveEffect_eq_ok.1 he).target
  have hholeless := Template.placeholders_eq_nil.1 h
  rw [rootOf, String.toList_ofList] at hholeless
  rw [root_of_parse hparse, rootOf, rootOf, Template.takeWhile_substitute hholeless ht]

/-- A root without placeholders is not the name of a parameter, nor that of the game data. -/
theorem literal_root_not_shadowing {spec : EffectSpec} (hload : loadAs format bytes = .ok d)
    (hfn : fn ∈ d.functionsOf p) (hspec : spec ∈ fn.effects) :
    rootOf spec.target ∉ fn.parameterNames ∧ rootOf spec.target ≠ "gameData" := by
  have hroot := knownRoot_of_isTarget ((sound_of_load hload hfn).targets spec hspec).1
  constructor
  · intro hname
    obtain ⟨hident, hcontext⟩ := parameterName_of_load hload hfn hname
    rcases hroot with hbrace | hstate
    · exact brace_not_mem_of_isIdent hident hbrace
    · exact hcontext (stateRoots_subset _ hstate)
  · intro he
    rw [KnownRoot, he] at hroot
    exact absurd hroot (by decide)

/-- What a name has without the roots that the call writes, it has with them as well, if no root of
that name is written or the root has the same value. -/
theorem get?_context_iff (hm : batch.Mirrors store store)
    (hroots : ∀ root, root ∈ batch.roots ↔ root ∈ State.rootsOf r.effects) {v : Json}
    (hv : name ∉ batch.roots → Fields.get? (context store gameData batch arguments) name = some v) :
    Fields.get? (context store gameData batch arguments) name = some v ↔
      ∀ e ∈ r.effects, e.target.root = name → store.readRoot? name = some v := by
  by_cases hn : name ∈ batch.roots
  · rw [get?_context hm, if_pos hn]
    obtain ⟨e, he, hroot⟩ := List.mem_map.1 (mem_sortedNames.1 ((hroots name).1 hn))
    exact ⟨fun h _ _ _ => h, fun h => h e he hroot⟩
  · refine iff_of_true (hv hn) fun e he hroot => ?_
    exact absurd ((hroots name).2 (hroot ▸ State.mem_rootsOf he)) hn

/-- The rules of a call that resolves see the state's roots under their names. They see an argument
under its parameter's name, and the document's game data, exactly if the call writes no root of that
name, or one with the same value; and it writes such a root only where a placeholder stands in the
root of a target. -/
theorem context_names_iff (hload : loadAs format bytes = .ok d) (hfn : fn ∈ d.functionsOf p)
    (hr : resolve store fn args = .ok r) :
    ∃ batch seen, bind fn.parameters args = .ok r.arguments ∧
      store.begin (State.rootsOf r.effects) = .ok batch ∧
      context store d.gameData batch r.arguments = seen ∧
      EvaluatedIn ⟨fn, p, d⟩ args store r seen ∧
      (∀ root ∈ ["character", "gameState"], ∀ v, store.readRoot? root = some v →
        seen.get? root = some v) ∧
      (∀ name ∈ fn.parameterNames, ∃ v, r.arguments.get? name = some v ∧
        (seen.get? name = some v ↔
          ∀ e ∈ r.effects, e.target.root = name → store.readRoot? name = some v)) ∧
      (seen.get? "gameData" = some (.obj d.gameData) ↔ ∀ e ∈ r.effects,
        e.target.root = "gameData" → store.readRoot? "gameData" = some (.obj d.gameData)) ∧
      ∀ spec ∈ fn.effects, Template.placeholders (rootOf spec.target) = [] →
        ∀ e, resolveEffect store r.arguments spec = .ok e →
          e.target.root ∉ fn.parameterNames ∧ e.target.root ≠ "gameData" := by
  have hresolves := resolve_eq_ok.1 hr
  obtain ⟨batch, hb⟩ := begin_of_resolves hresolves
  obtain ⟨hm, hroots⟩ := State.Store.begin_mirrors hb
  refine ⟨batch, _, hresolves.bound, hb, rfl, evaluatedIn_context hresolves hb, ?_, ?_, ?_, ?_⟩
  · intro root hroot v hv
    have hstate : root ∈ stateRoots := hroot
    have hne : root ≠ "gameData" := fun he => absurd (he ▸ hstate) (by decide)
    rw [get?_context hm, hv, if_neg hne, if_pos hstate, Option.some_or, ite_self]
  · intro name hname
    obtain ⟨hident, hcontext⟩ := parameterName_of_load hload hfn hname
    obtain ⟨q, hq, hqn⟩ := List.mem_map.1 hname
    obtain ⟨v, hv⟩ := get?_of_bind hresolves.bound q hq
    rw [hqn] at hv
    refine ⟨v, hv, get?_context_iff hm hroots fun hn => ?_⟩
    have hne : name ≠ "gameData" := fun he => hcontext (he ▸ by decide)
    have hstate : name ∉ stateRoots := mt (stateRoots_subset name) hcontext
    rw [get?_context hm, if_neg hn, if_neg hne, if_neg hstate, hv]
  · refine get?_context_iff hm hroots fun hn => ?_
    rw [get?_context hm, if_neg hn, if_pos rfl]
  · intro spec hspec hliteral e he
    rw [root_of_literal hliteral he]
    exact literal_root_not_shadowing hload hfn hspec

def wellText : String :=
  "\x7b\"metadata\":\x7b\"id\":\"well\",\"name\":\"Well\",\"version\":\"1\"\x7d,
   \"functionsByPhase\":\x7b\"rest\":[\x7b\"id\":\"draw\",\"name\":\"draw\",
   \"parameters\":[\x7b\"name\":\"pool\",\"type\":\"string\",\"required\":true\x7d],
   \"ruleValidations\":[\"gameData.limit == 5\"],\"effects\":[
   \x7b\"target\":\"\x7bpool\x7d.left\",\"operation\":\"add\",\"value\":-1\x7d]\x7d]\x7d,
   \"gameData\":\x7b\"limit\":5\x7d\x7d"

def draw : Function where
  id := "draw"
  name := "draw"
  description := ""
  parameters := [⟨"pool", .string, true, "", none, none⟩]
  validations := ["gameData.limit == 5"]
  effects := [⟨"\x7bpool\x7d.left", .add, .int (-1)⟩]

def isWell (d : Document) : Bool :=
  match d.functionsOf .rest, d.gameData with
  | [⟨"draw", "draw", "", [⟨"pool", .string, true, "", none, none⟩], ["gameData.limit == 5"],
      [⟨"\x7bpool\x7d.left", .add, .int (-1)⟩]⟩], [("limit", .int 5)] => true
  | _, _ => false

theorem load_well : ∃ d, loadAs .json wellText.toUTF8 = .ok d ∧
    d.functionsOf .rest = [draw] ∧ d.gameData = [("limit", .int 5)] := by
  have h : (loadAs .json wellText.toUTF8).toOption.any isWell = true := by decide +kernel
  obtain ⟨d, hd, hwell⟩ := exists_of_toOption_any h
  refine ⟨d, hd, ?_⟩
  unfold isWell at hwell
  split at hwell
  · next hf hg => exact ⟨hf, hg⟩
  · cases hwell

def wells : State.Store :=
  ⟨[("character", .obj [("left", .int 3)]),
    ("gameData", .obj [("left", .int 3), ("limit", .int 1)]), ("gameState", .obj [])]⟩

def drawn (root : String) : Resolved where
  arguments := [("pool", .str root)]
  validations := ["gameData.limit == 5"]
  effects := [⟨⟨root, ["left"]⟩, .add, .int (-1)⟩]

theorem resolve_draw {root : String} (h : root = "character" ∨ root = "gameData") :
    resolve wells draw [("pool", .str root)] = .ok (drawn root) := by
  rw [resolve_eq_ok]
  rcases h with rfl | rfl
  · exact ⟨rfl, .cons (by cbv) .nil, .cons ⟨⟨"character.left", by cbv, rfl⟩, rfl, rfl, rfl⟩ .nil⟩
  · exact ⟨rfl, .cons (by cbv) .nil, .cons ⟨⟨"gameData.left", by cbv, rfl⟩, rfl, rfl, rfl⟩ .nil⟩

theorem context_names_iff_well : ∃ d seen, loadAs .json wellText.toUTF8 = .ok d ∧
    draw ∈ d.functionsOf .rest ∧
    resolve wells draw [("pool", .str "character")] = .ok (drawn "character") ∧
    EvaluatedIn ⟨draw, .rest, d⟩ [("pool", .str "character")] wells (drawn "character") seen ∧
    seen.get? "character" = some (.obj [("left", .int 3)]) ∧
    seen.get? "pool" = some (.str "character") ∧
    seen.get? "gameData" = some (.obj d.gameData) := by
  obtain ⟨d, hd, hf, -⟩ := load_well
  have hfn : draw ∈ d.functionsOf .rest := by simp [hf]
  have hr := resolve_draw (.inl rfl)
  obtain ⟨_, seen, -, -, -, heval, hstate, hparams, hdata, -⟩ := context_names_iff hd hfn hr
  obtain ⟨v, hv, hpool⟩ := hparams "pool" (.head _)
  cases hv
  have hother (name : String) (v : Json) (hne : "character" ≠ name) :
      ∀ e ∈ (drawn "character").effects,
        e.target.root = name → wells.readRoot? name = some v := by
    rintro e (_ | ⟨_, ⟨⟩⟩) h
    exact absurd h hne
  exact ⟨d, seen, hd, hfn, hr, heval, hstate "character" (.head _) _ rfl,
    hpool.2 (hother _ _ (by decide)), hdata.2 (hother _ _ (by decide))⟩

/-- An argument that names a root with the game data's name hides the game data from the rules. -/
theorem written_root_hides : ∃ d seen, loadAs .json wellText.toUTF8 = .ok d ∧
    draw ∈ d.functionsOf .rest ∧ d.gameData = [("limit", .int 5)] ∧
    resolve wells draw [("pool", .str "gameData")] = .ok (drawn "gameData") ∧
    EvaluatedIn ⟨draw, .rest, d⟩ [("pool", .str "gameData")] wells (drawn "gameData") seen ∧
    seen.get? "gameData" = some (.obj [("left", .int 3), ("limit", .int 1)]) := by
  obtain ⟨d, hd, hf, hdata⟩ := load_well
  have hr := resolve_draw (.inr rfl)
  have hb : wells.begin (State.rootsOf (drawn "gameData").effects) =
      .ok (wells.hold ["gameData"]) := rfl
  refine ⟨d, _, hd, by simp [hf], hdata, hr, evaluatedIn_context (resolve_eq_ok.1 hr) hb, ?_⟩
  rw [hdata]
  rfl

end Rulebook.Call
