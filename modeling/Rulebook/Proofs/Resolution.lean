import Rulebook.Proofs.LoadedFunctions

namespace Rulebook.Template

def HasValue (b : Bindings) (name : String) : Prop :=
  name ∈ reservedRoots ∨ ∃ v, b.get? name = some v

def Covers (bindings : Bindings) (s : String) : Prop :=
  ∀ n ∈ placeholders s, HasValue bindings n

variable {b bindings : Bindings} {s name : String} {v : Json}

theorem mem_placeholders : name ∈ placeholders s ↔ .hole name ∈ segments s.toList := by
  rw [placeholders, List.mem_filterMap]
  constructor
  · rintro ⟨_ | n, hs, hn⟩
    · cases hn
    · cases hn
      exact hs
  · exact fun h => ⟨.hole name, h, rfl⟩

theorem error?_lookup_eq_none : error? (lookup b name) = none ↔ HasValue b name := by
  unfold lookup HasValue
  split
  · next hr => simp [hr, error?]
  · next hr => cases b.get? name <;> simp [hr, error?]

theorem error?_lookup_eq_some {e : Fault} :
    error? (lookup b name) = some e ↔ ¬ HasValue b name ∧ e = .unresolved name := by
  unfold lookup HasValue
  split
  · next hr => simp [hr, error?]
  · next hr => cases b.get? name <;> simp [hr, error?, eq_comm]

theorem error?_substitute (s : String) (b : Bindings) :
    error? (substitute s b) = (placeholders s).findSome? fun n => error? (lookup b n) := by
  rw [substitute, error?_map, error?_mapM, placeholders]
  induction segments s.toList with
  | nil => rfl
  | cons seg ss ih =>
    cases seg with
    | char c => exact ih
    | hole n =>
      show _ = (n :: ss.filterMap Segment.name?).findSome? _
      rw [List.findSome?_cons, List.findSome?_cons, ih, Segment.fill, error?_map]

theorem substitute_ok (h : Covers bindings s) : ∃ t, substitute s bindings = .ok t := by
  rw [← error?_eq_none, error?_substitute, List.findSome?_eq_none_iff]
  exact fun n hn => error?_lookup_eq_none.2 (h n hn)

theorem placeholders_of_sole? (h : sole? s = some name) : placeholders s = [name] := by
  unfold sole? at h
  split at h
  · next hs =>
    cases h
    rw [placeholders, hs]
    rfl
  · cases h

mutual

/-- A value fails to resolve as the first of its placeholders that has no value. -/
theorem error?_resolve (b : Bindings) : ∀ v : Json,
    error? (resolve b v) = (valuePlaceholders v).findSome? fun n => error? (lookup b n)
  | .str s => by
    rw [resolve, valuePlaceholders]
    split
    · next name h => rw [placeholders_of_sole? h, List.findSome?_singleton]
    · rw [error?_map, error?_substitute]
  | .arr items => by rw [resolve, error?_map, error?_resolveItems b items, valuePlaceholders]
  | .obj members => by rw [resolve, error?_map, error?_resolveMembers b members, valuePlaceholders]
  | .null | .bool _ | .int _ | .float _ => by simp [resolve, valuePlaceholders, error?]

theorem error?_resolveItems (b : Bindings) : ∀ items : List Json,
    error? (resolveItems b items) =
      (itemPlaceholders items).findSome? fun n => error? (lookup b n)
  | [] => by rw [resolveItems, itemPlaceholders]; rfl
  | v :: vs => by
    rw [resolveItems, error?_bind_map, error?_resolve b v, error?_resolveItems b vs,
      itemPlaceholders, List.findSome?_append]

theorem error?_resolveMembers (b : Bindings) : ∀ members : List (String × Json),
    error? (resolveMembers b members) =
      (memberPlaceholders members).findSome? fun n => error? (lookup b n)
  | [] => by rw [resolveMembers, memberPlaceholders]; rfl
  | (k, v) :: ms => by
    rw [resolveMembers, error?_bind_map, error?_resolve b v, error?_resolveMembers b ms,
      memberPlaceholders, List.findSome?_append]

end

theorem resolve_exists_iff :
    (∃ w, resolve b v = .ok w) ↔ ∀ n ∈ valuePlaceholders v, HasValue b n := by
  rw [← error?_eq_none, error?_resolve, List.findSome?_eq_none_iff]
  simp only [error?_lookup_eq_none]

theorem resolve_ok (v : Json) (h : ∀ s, HoldsText s v → Covers bindings s) :
    ∃ w, resolve bindings v = .ok w := by
  refine resolve_exists_iff.2 fun n hn => ?_
  obtain ⟨s, hs, hn⟩ := (mem_valuePlaceholders v).1 hn
  exact h s hs n hn

theorem mem_of_annotate {position : Position} :
    ∀ (ss : List Segment) (p : Position) (k : Nat),
      .hole name position ∈ annotate p k ss → .hole name ∈ ss
  | [], _, _, h => by simp [annotate] at h
  | .hole n :: ss, p, k, h => by
    rw [annotate, List.mem_cons] at h
    rcases h with h | h
    · cases h
      simp
    · exact List.mem_cons_of_mem _ (mem_of_annotate ss _ _ h)
  | .char c :: ss, p, 0, h => by
    simp only [annotate, List.mem_cons, reduceCtorEq, false_or] at h
    exact List.mem_cons_of_mem _ (mem_of_annotate ss _ _ h)
  | .char c :: ss, p, k + 1, h => by
    simp only [annotate, List.mem_cons, reduceCtorEq, false_or] at h
    exact List.mem_cons_of_mem _ (mem_of_annotate ss _ _ h)

theorem substituteRule_error {fault : Fault} (h : Covers bindings s)
    (hs : substituteRule s bindings = .error fault) :
    ∃ name refusal, fault = .unsafeArgument name refusal := by
  unfold substituteRule at hs
  cases hm : (parts s).mapM (Part.fill bindings) with
  | ok ps =>
    rw [hm] at hs
    cases hs
  | error e =>
    rw [hm] at hs
    cases hs
    obtain ⟨_ | ⟨name, position⟩, hp, hf⟩ := mem_of_mapM_eq_error hm
    · cases hf
    · have hcover := h name (mem_placeholders.2 (mem_of_annotate _ _ _ hp))
      simp only [Part.fill] at hf
      split at hf
      · cases hf
      · next hr =>
        obtain ⟨v, hv⟩ := hcover.resolve_left hr
        rw [hv] at hf
        simp only at hf
        split at hf
        · cases hf
        · cases hf
          exact ⟨name, _, rfl⟩

end Rulebook.Template

namespace Rulebook.Call

open Ruleset

theorem bindAll_append (ps : List Parameter) (p : Parameter) (args : Fields Json) :
    bindAll (ps ++ [p]) args =
      match Parameter.bind p args with
      | .ok v => ((bindAll ps args).1, Fields.insert p.name v (bindAll ps args).2)
      | .error e => ((bindAll ps args).1 ++ [e], (bindAll ps args).2) := by
  cases hp : Parameter.bind p args <;> simp [bindAll, hp]

theorem get?_bindAll {ps : List Parameter} {args : Fields Json} (h : (bindAll ps args).1 = []) :
    ∀ p ∈ ps, ∃ v, Fields.get? (bindAll ps args).2 p.name = some v := by
  induction ps using List.reverseRecOn with
  | nil => simp
  | append_singleton ps p ih =>
    rw [bindAll_append] at h ⊢
    cases hp : Parameter.bind p args with
    | error e => simp [hp] at h
    | ok v =>
      simp only [hp] at h ⊢
      intro q hq
      rw [Fields.get?_insert]
      split
      · exact ⟨v, rfl⟩
      · next hne =>
        rcases List.mem_append.1 hq with hq | hq
        · exact ih h q hq
        · exact absurd (by rw [List.mem_singleton.1 hq]) hne

theorem get?_of_bind {ps : List Parameter} {args arguments : Fields Json}
    (h : bind ps args = .ok arguments) : ∀ p ∈ ps, ∃ v, arguments.get? p.name = some v := by
  simp only [bind] at h
  split at h
  · next hf =>
    cases h
    exact get?_bindAll (List.append_eq_nil_iff.1 (List.isEmpty_iff.1 hf)).2
  · cases h

/-- The arguments of a call have a value for whatever its function declares. -/
theorem covers_of_bind {fn : Function} {args arguments : Fields Json} {s : String}
    (h : bind fn.parameters args = .ok arguments) (hs : Declares fn.parameterNames s) :
    Template.Covers arguments s := by
  intro n hn
  rcases hs n hn with hdeclared | hr
  · obtain ⟨p, hp, rfl⟩ := List.mem_map.1 hdeclared
    exact .inr (get?_of_bind h p hp)
  · exact .inl hr

variable {store : State.Store} {arguments : Fields Json} {e : CallError}

theorem kind_of_resolveRule {rule : String} (h : Template.Covers arguments rule)
    (he : resolveRule arguments rule = .error e) : e.kind = .argument := by
  unfold resolveRule at he
  split at he
  · cases he
  · next hs =>
    obtain ⟨_, _, hf⟩ := Template.substituteRule_error h hs
    cases hf
  · cases he
    rfl

/-- An effect whose placeholders all have values can only fail for its target. -/
theorem kind_of_resolveEffect {spec : EffectSpec} (ht : Template.Covers arguments spec.target)
    (hv : ∀ s, Template.HoldsText s spec.value → Template.Covers arguments s)
    (he : resolveEffect store arguments spec = .error e) : e.kind = .application := by
  obtain ⟨target, htarget⟩ := Template.substitute_ok ht
  obtain ⟨value, hvalue⟩ := Template.resolve_ok spec.value hv
  rw [resolveEffect, htarget, hvalue] at he
  simp only [structural, ok_bind] at he
  split at he
  · cases he
    rfl
  · split at he
    · cases he
    · cases he
      rfl

theorem kind_of_resolve {fn : Function} {args : Fields Json} (hfn : fn.Sound)
    (he : resolve store fn args = .error e) : e.kind ≠ .structural := by
  rw [resolve] at he
  cases hb : bind fn.parameters args with
  | error faults =>
    rw [hb] at he
    cases he
    simp
  | ok arguments =>
    simp only [hb, ok_bind] at he
    rcases bind_eq_error.1 he with he | ⟨_, -, he⟩
    · obtain ⟨rule, hr, he⟩ := mem_of_mapM_eq_error he
      simp [kind_of_resolveRule (covers_of_bind hb (hfn.validations rule hr)) he]
    · rcases bind_eq_error.1 he with he | ⟨_, -, he⟩
      · obtain ⟨spec, hs, he⟩ := mem_of_mapM_eq_error he
        simp [kind_of_resolveEffect (covers_of_bind hb (hfn.targets spec hs).2)
          (fun s hin => covers_of_bind hb (hfn.values spec hs s hin)) he]
      · cases he

/-- A state with the roots that effects may write has callables for a loaded document, one for each
function, and no call of them meets a placeholder without a value. -/
theorem load_resolves {format : Format} {bytes : ByteArray} {d : Document}
    (hload : loadAs format bytes = .ok d)
    (hroots : ∀ root ∈ ["character", "gameState"], store.hasRoot root = true) :
    allCallables store.names d =
        .ok (d.phases.map fun p => (p, (d.functionsOf p).map fun fn => ⟨fn, p, d⟩)) ∧
      ∀ p, ∀ fn ∈ d.functionsOf p, ∀ args,
        (∀ e, resolve store fn args = .error e → e.kind ≠ .structural) ∧
        ∀ arguments, bind fn.parameters args = .ok arguments →
          (∀ rule ∈ fn.validations, ∀ name,
            Template.substituteRule rule arguments ≠ .error (.unresolved name)) ∧
          ∀ spec ∈ fn.effects,
            (∃ target, Template.substitute spec.target arguments = .ok target) ∧
            ∃ value, Template.resolve arguments spec.value = .ok value := by
  refine ⟨allCallables_of_load hload hroots, fun p fn hfn args => ?_⟩
  have hsound := sound_of_load hload hfn
  refine ⟨fun e => kind_of_resolve hsound, fun arguments hb => ⟨?_, ?_⟩⟩
  · intro rule hr name hs
    obtain ⟨_, _, hf⟩ :=
      Template.substituteRule_error (covers_of_bind hb (hsound.validations rule hr)) hs
    cases hf
  · intro spec hs
    exact ⟨Template.substitute_ok (covers_of_bind hb (hsound.targets spec hs).2),
      Template.resolve_ok spec.value fun s hin => covers_of_bind hb (hsound.values spec hs s hin)⟩

theorem load_resolves_camp :
    ∃ d, loadAs .json campText.toUTF8 = .ok d ∧ campFunction ∈ d.functionsOf .rest ∧
      allCallables ["character", "gameState"] d =
        .ok (d.phases.map fun p => (p, (d.functionsOf p).map fun fn => ⟨fn, p, d⟩)) ∧
      bind campFunction.parameters [("n", .str "mood")] = .ok [("n", .str "mood")] ∧
      (∀ rule ∈ campFunction.validations, ∀ name,
        Template.substituteRule rule [("n", .str "mood")] ≠ .error (.unresolved name)) ∧
      ∀ spec ∈ campFunction.effects,
        (∃ target, Template.substitute spec.target [("n", .str "mood")] = .ok target) ∧
        ∃ value, Template.resolve [("n", .str "mood")] spec.value = .ok value := by
  obtain ⟨d, hd, hf⟩ := load_camp
  have hfn : campFunction ∈ d.functionsOf .rest := by simp [hf]
  have hbind : bind campFunction.parameters [("n", .str "mood")] = .ok [("n", .str "mood")] := rfl
  have hroots : ∀ root ∈ ["character", "gameState"],
      (State.Store.withRoots ["character", "gameState"]).hasRoot root = true := by decide
  obtain ⟨hall, hresolves⟩ := load_resolves hd hroots
  exact ⟨d, hd, hfn, hall, hbind, (hresolves _ _ hfn _).2 _ hbind⟩

end Rulebook.Call
