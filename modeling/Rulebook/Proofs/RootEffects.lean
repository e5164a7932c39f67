import Rulebook.Proofs.Staging

namespace Rulebook.State

def effectsOn (root : String) (es : List Effect) : List Effect :=
  es.filter fun e => e.target.root = root

/-- Effects one after another on one value, whatever roots they name. -/
def replay : List Effect → Json → Except PathFault Json
  | [], v => .ok v
  | e :: es, v => do
    let (v, _) ← apply e.operation e.value e.target.rest v
    replay es v

variable {s s' final : Store} {e : Effect} {es es' : List Effect} {as : List Applied}
  {root : String} {v : Json}

theorem Batch.Mirrors.ext {b b' : Batch} {s₁ s₂ : Store} (h : b.Mirrors s s₁)
    (h' : b'.Mirrors s s₂) (hroots : ∀ root, root ∈ b.roots ↔ root ∈ b'.roots)
    (hread : ∀ root, s₁.readRoot? root = s₂.readRoot? root) : b = b' := by
  refine eq_of_staged (h.ordered.ext h'.ordered fun root => ?_)
  change b.view? root = b'.view? root
  by_cases hm : root ∈ b.roots
  · have hin := h'.inside root ((hroots root).1 hm)
    exact (h.inside root hm).trans ((hread root).trans hin.symm)
  · rw [view?_eq_none_iff.2 hm, view?_eq_none_iff.2 (mt (hroots root).2 hm)]

theorem effectsOn_cons_self (e : Effect) (es : List Effect) :
    effectsOn e.target.root (e :: es) = e :: effectsOn e.target.root es := by
  simp [effectsOn]

theorem effectsOn_cons_of_ne (h : e.target.root ≠ root) (es : List Effect) :
    effectsOn root (e :: es) = effectsOn root es := by
  simp [effectsOn, h]

theorem mem_roots_iff_effectsOn : (∃ e ∈ es, e.target.root = root) ↔ effectsOn root es ≠ [] := by
  simp [effectsOn, List.filter_eq_nil_iff]

theorem replay_cons_eq_ok {w : Json} : replay (e :: es) v = .ok w ↔
    ∃ v' change, apply e.operation e.value e.target.rest v = .ok (v', change) ∧
      replay es v' = .ok w := by
  simp only [replay, bind_eq_ok, Prod.exists]

namespace Store

/-- What effects do to a store they do to each of its roots alone. -/
theorem replay_of_writes (h : s.writes es = some (final, as)) (root : String) :
    (∀ v, s.readRoot? root = some v →
      ∃ w, replay (effectsOn root es) v = .ok w ∧ final.readRoot? root = some w) ∧
    (s.readRoot? root = none → final.readRoot? root = none) := by
  induction es generalizing s as with
  | nil =>
    cases h
    exact ⟨fun v hv => ⟨v, rfl, hv⟩, id⟩
  | cons e es ih =>
    rw [writes] at h
    cases hw : s.write e with
    | none => simp [hw] at h
    | some r =>
      obtain ⟨s₁, a⟩ := r
      simp only [hw, Option.map_eq_some_iff, Prod.exists, Prod.mk.injEq] at h
      obtain ⟨final, as', hws, rfl, -⟩ := h
      obtain ⟨v₀, v₁, hv₀, ha, rfl, -⟩ := write_eq_some.1 hw
      have := ih hws
      rw [readRoot?_insertRoot] at this
      by_cases hr : root = e.target.root
      · subst hr
        rw [if_pos rfl] at this
        obtain ⟨w, hw', hf⟩ := this.1 v₁ rfl
        rw [effectsOn_cons_self]
        refine ⟨fun v hv => ⟨w, replay_cons_eq_ok.2 ?_, hf⟩, fun hn => by cases hv₀.symm.trans hn⟩
        cases hv₀.symm.trans hv
        exact ⟨v₁, a.change, ha, hw'⟩
      · rw [if_neg hr] at this
        rwa [effectsOn_cons_of_ne (Ne.symm hr)]

/-- Effects that go through on each root alone go through on the store. -/
theorem writes_of_replay (hr : ∀ e ∈ es, s.hasRoot e.target.root = true)
    (h : ∀ root v, s.readRoot? root = some v → ∃ w, replay (effectsOn root es) v = .ok w) :
    ∃ final as, s.writes es = some (final, as) := by
  -- after each effect its root holds what is left to replay there
  induction es generalizing s with
  | nil => exact ⟨s, [], rfl⟩
  | cons e es ih =>
    rw [List.forall_mem_cons] at hr
    obtain ⟨v, hv⟩ := hasRoot_iff.1 hr.1
    obtain ⟨w, hw⟩ := h _ v hv
    rw [effectsOn_cons_self, replay_cons_eq_ok] at hw
    obtain ⟨v', change, ha, hw⟩ := hw
    have hwrite : s.write e = some (s.insertRoot e.target.root v', ⟨e, change⟩) :=
      write_eq_some.2 ⟨v, v', hv, ha, rfl, rfl⟩
    obtain ⟨final, as, hws⟩ := ih (s := s.insertRoot e.target.root v')
      (fun e' he' => by
        obtain ⟨v'', hv''⟩ := hasRoot_iff.1 (hr.2 e' he')
        rw [hasRoot_iff, readRoot?_insertRoot]
        split
        · exact ⟨v', rfl⟩
        · exact ⟨v'', hv''⟩)
      (fun root v'' hv'' => by
        rw [readRoot?_insertRoot] at hv''
        by_cases hne : root = e.target.root
        · subst hne
          rw [if_pos rfl] at hv''
          cases hv''
          exact ⟨w, hw⟩
        · rw [if_neg hne] at hv''
          simpa [effectsOn_cons_of_ne (Ne.symm hne)] using h root v'' hv'')
    exact ⟨final, ⟨e, change⟩ :: as, by simp [writes, hwrite, hws]⟩

theorem begin_error {roots : List String} (h : ∃ root ∈ roots, s.hasRoot root = false) :
    ∃ root, s.begin roots = .error (.unknownRoot root) ∧
      IsLeast {root | root ∈ roots ∧ s.hasRoot root = false} root := by
  obtain ⟨missing, hm, hs⟩ := h
  cases hf : (sortedNames roots).find? fun r => !s.hasRoot r with
  | none =>
    have := List.find?_eq_none.1 hf missing (mem_sortedNames.2 hm)
    simp [hs] at this
  | some root =>
    obtain ⟨hroot, before, after, he, hbefore⟩ := List.find?_eq_some_iff_append.1 hf
    refine ⟨root, by simp only [begin, hf], ⟨?_, by simpa using hroot⟩, fun other ho => ?_⟩
    · rw [← mem_sortedNames, he]
      simp
    · have hother : other ∈ before ++ root :: after := by
        rw [← he, mem_sortedNames]
        exact ho.1
      have hsorted := he ▸ sortedNames_pairwise roots
      rcases List.mem_append.1 hother with hb | ha
      · have := hbefore other hb
        simp [ho.2] at this
      · rcases List.mem_cons.1 ha with rfl | ha
        · exact le_refl _
        · exact le_of_lt (List.rel_of_pairwise_cons (List.pairwise_append.1 hsorted).2.1 ha)

theorem attempt_eq_ok : s.apply es = .ok (s', as) ↔ s.attempt es = (s', .ok as) := by
  unfold apply
  obtain ⟨r, result⟩ := s.attempt es
  cases result <;> simp [Except.map]

theorem attempt_eq_error {fault : Fault} :
    s.apply es = .error fault ↔ s.attempt es = (s, .error fault) := by
  have hunchanged {r : Store} {fault : Fault} (h : s.attempt es = (r, .error fault)) : r = s := by
    unfold attempt at h
    split at h
    · cases h
    · split at h
      · cases h
        rfl
      · split at h <;> cases h
        rfl
  unfold apply
  cases h : s.attempt es with
  | mk r result =>
    cases result with
    | ok as => simp [Except.map]
    | error fault' =>
      rw [hunchanged h]
      simp [Except.map]

theorem apply_cases (hr : ∀ e ∈ es, s.hasRoot e.target.root = true) :
    (∃ (b : Batch) (final : Store) (as : List Applied), b.Mirrors s final ∧
      (∀ root, root ∈ b.roots ↔ effectsOn root es ≠ []) ∧
      s.writes es = some (final, as) ∧ s.apply es = .ok (b.commit s, as)) ∨
    ∃ done e rest final as v cause, es = done ++ e :: rest ∧
      s.writes done = some (final, as) ∧ final.readRoot? e.target.root = some v ∧
      State.apply e.operation e.value e.target.rest v = .error cause ∧
      s.apply es = .error (.rejected done.length e.operation e.target.text cause) ∧
      s.writes es = none := by
  cases hes : es with
  | nil => exact .inl ⟨⟨[], [], rfl, nofun⟩, s, [],
      ⟨.nil, by simp [Batch.roots, Fields.names], fun _ _ => rfl⟩,
      by simp [Batch.roots, Fields.names, effectsOn], rfl, rfl⟩
  | cons e₀ es₀ =>
    rw [← hes]
    have hne : es.isEmpty = false := by rw [hes]; rfl
    have hheld : ∀ root ∈ rootsOf es, s.hasRoot root = true := by
      intro root hm
      obtain ⟨e, he, rfl⟩ := List.mem_map.1 (mem_sortedNames.1 hm)
      exact hr e he
    obtain ⟨b, hb⟩ := begin_ok hheld
    obtain ⟨hm, hroots⟩ := begin_mirrors hb
    have heffects (root : String) : root ∈ b.roots ↔ effectsOn root es ≠ [] := by
      rw [hroots, rootsOf, mem_sortedNames, List.mem_map, ← mem_roots_iff_effectsOn]
    rcases Batch.stage_split b 0 es with
      ⟨b', as, hs⟩ | ⟨done, e, rest, b', as, fault, he, hd, hf, hs⟩
    · obtain ⟨final, hw, hm'⟩ := hm.stage hs
      refine .inl ⟨b', final, as, hm', fun root => ?_, hw, ?_⟩
      · rw [← heffects, Batch.mem_roots_of_stage hs]
      · simp [attempt_eq_ok, attempt, hne, hb, hs]
    · obtain ⟨final, hw, hm'⟩ := hm.stage hd
      have hin : e.target.root ∈ b'.roots := by
        rw [Batch.mem_roots_of_stage hd, hroots]
        exact mem_rootsOf (by simp [he])
      obtain ⟨v, cause, hv, ha, rfl⟩ := hm'.set_error hin hf
      have hn : final.write e = none := by simp [write, hv, ha]
      refine .inr ⟨done, e, rest, final, as, v, cause, he, hw, hv, ha, ?_, ?_⟩
      · simp [attempt_eq_error, attempt, Batch.rollback, hne, hb, hs, Fault.placed]
      · rw [he, writes_append, hw, Option.bind_some, writes, hn]
        rfl

theorem hasRoot_of_effectsOn (h : ∀ root, effectsOn root es' = effectsOn root es)
    (hr : ∀ e ∈ es, s.hasRoot e.target.root = true) :
    ∀ e ∈ es', s.hasRoot e.target.root = true := by
  intro e he
  have hne := mem_roots_iff_effectsOn.1 ⟨e, he, rfl⟩
  rw [h] at hne
  obtain ⟨e', he', hroot⟩ := mem_roots_iff_effectsOn.2 hne
  exact hroot ▸ hr e' he'

theorem apply_of_effectsOn (hr : ∀ e ∈ es, s.hasRoot e.target.root = true)
    (h : ∀ root, effectsOn root es' = effectsOn root es) (ha : s.apply es = .ok (s', as)) :
    ∃ as', s.apply es' = .ok (s', as') := by
  rcases apply_cases hr with
    ⟨b, final, as, hm, hroots, hw, hok⟩ | ⟨_, _, _, _, _, _, _, -, -, -, -, hfail, -⟩
  · cases hok.symm.trans ha
    obtain ⟨final', as', hw'⟩ := writes_of_replay (hasRoot_of_effectsOn h hr) fun root v hv => by
      obtain ⟨w, hre, -⟩ := (replay_of_writes hw root).1 v hv
      exact ⟨w, (h root).symm ▸ hre⟩
    rcases apply_cases (hasRoot_of_effectsOn h hr) with
      ⟨b', final'', as'', hm', hroots', hw'', hok'⟩ | ⟨_, _, _, _, _, _, _, -, -, -, -, -, hnone⟩
    · have hb : b' = b := hm'.ext hm (fun root => by rw [hroots', hroots, h]) fun root => by
        have h₁ := replay_of_writes hw root
        have h₂ := replay_of_writes hw'' root
        rw [h] at h₂
        cases hv : s.readRoot? root with
        | none => rw [h₁.2 hv, h₂.2 hv]
        | some v =>
          obtain ⟨w, hre, hf⟩ := h₁.1 v hv
          obtain ⟨w', hre', hf'⟩ := h₂.1 v hv
          cases hre.symm.trans hre'
          rw [hf, hf']
      exact ⟨as'', hb ▸ hok'⟩
    · cases hw'.symm.trans hnone
  · cases hfail.symm.trans ha

theorem apply_eq_ok (hr : ∀ e ∈ es, s.hasRoot e.target.root = true)
    (h : s.apply es = .ok (s', as)) : ∃ final, s.writes es = some (final, as) ∧
      ∀ root, s'.readRoot? root = final.readRoot? root := by
  rcases apply_cases hr with
    ⟨b, final, as, hm, -, hw, hok⟩ | ⟨_, _, _, _, _, _, _, -, -, -, -, hfail, -⟩
  · cases hok.symm.trans h
    exact ⟨final, hw, Batch.readRoot?_commit hm⟩
  · cases hfail.symm.trans h

theorem apply_of_writes (hr : ∀ e ∈ es, s.hasRoot e.target.root = true)
    (h : s.writes es = some (final, as)) : ∃ s', s.apply es = .ok (s', as) ∧
      ∀ root, s'.readRoot? root = final.readRoot? root := by
  rcases apply_cases hr with
    ⟨b, final', as', hm, -, hw, hok⟩ | ⟨_, _, _, _, _, _, _, -, -, -, -, -, hnone⟩
  · cases hw.symm.trans h
    exact ⟨_, hok, Batch.readRoot?_commit hm⟩
  · cases hnone.symm.trans h

/-- The effects before the first one that fails are those that can be applied alone. -/
theorem isLeast_failing {done rest : List Effect}
    (hr : ∀ e' ∈ done ++ e :: rest, s.hasRoot e'.target.root = true)
    (hw : s.writes done = some (final, as)) (hn : final.write e = none) :
    IsLeast {j | ∃ fault, s.apply ((done ++ e :: rest).take (j + 1)) = .error fault}
      done.length := by
  have hroots (k : Nat) : ∀ e' ∈ (done ++ e :: rest).take k, s.hasRoot e'.target.root = true :=
    fun e' he => hr e' (List.mem_of_mem_take he)
  constructor
  · cases ha : s.apply ((done ++ e :: rest).take (done.length + 1)) with
    | error fault => exact ⟨fault, ha⟩
    | ok r =>
      obtain ⟨_, hall, -⟩ := apply_eq_ok (hroots _) ha
      rw [List.take_length_add_append] at hall
      simp [writes_append, hw, writes, hn] at hall
  · rintro j ⟨fault, hfail⟩
    by_contra hlt
    have htake : (done ++ e :: rest).take (j + 1) = done.take (j + 1) :=
      List.take_append_of_le_length (by omega)
    rw [← List.take_append_drop (j + 1) done, writes_append] at hw
    obtain ⟨r, hprefix, -⟩ := Option.bind_eq_some_iff.1 hw
    obtain ⟨_, hok, -⟩ := apply_of_writes (hroots (j + 1)) (htake ▸ hprefix)
    cases hok.symm.trans hfail

/-- The first effect that fails is reported, with the state that it fails in. -/
theorem apply_eq_error {fault : Fault} (hr : ∀ e ∈ es, s.hasRoot e.target.root = true)
    (h : s.apply es = .error fault) :
    ∃ i e s' as v cause, es[i]? = some e ∧
      IsLeast {j | ∃ fault', s.apply (es.take (j + 1)) = .error fault'} i ∧
      s.apply (es.take i) = .ok (s', as) ∧ s'.readRoot? e.target.root = some v ∧
      State.apply e.operation e.value e.target.rest v = .error cause ∧
      fault = .rejected i e.operation e.target.text cause := by
  rcases apply_cases hr with
    ⟨_, _, _, -, -, -, hok⟩ | ⟨done, e, rest, final, as, v, cause, rfl, hw, hv, ha, hfail, -⟩
  · cases hok.symm.trans h
  · cases hfail.symm.trans h
    have hdone : ∀ e ∈ done, s.hasRoot e.target.root = true := fun e he => hr e (by simp [he])
    obtain ⟨s', hs', hread⟩ := apply_of_writes hdone hw
    have hn : final.write e = none := by simp [write, hv, ha]
    refine ⟨done.length, e, s', as, v, cause, by simp, isLeast_failing hr hw hn, ?_,
      (hread _).trans hv, ha, rfl⟩
    rw [List.take_left, hs']

theorem apply_unknownRoot (h : ∃ e ∈ es, s.hasRoot e.target.root = false) :
    ∃ root, s.apply es = .error (.unknownRoot root) ∧
      IsLeast {root | (∃ e ∈ es, e.target.root = root) ∧ s.hasRoot root = false} root := by
  obtain ⟨e, he, hmissing⟩ := h
  have hlacks : ∃ root ∈ rootsOf es, s.hasRoot root = false :=
    ⟨e.target.root, mem_rootsOf he, hmissing⟩
  obtain ⟨root, hb, hleast⟩ := begin_error hlacks
  have hset : {root | root ∈ rootsOf es ∧ s.hasRoot root = false} =
      {root | (∃ e ∈ es, e.target.root = root) ∧ s.hasRoot root = false} := by
    simp [rootsOf, mem_sortedNames]
  refine ⟨root, ?_, hset ▸ hleast⟩
  rw [attempt_eq_error, attempt, if_neg (by simp [List.ne_nil_of_mem he]), hb]

end Store

/-- Effects on roots of the store are applied exactly if on each root alone they go through. Then
each root is what its own effects make of it, and effects on different roots may change places. If
one fails, nothing changes and the first that fails is reported; if the store lacks a root, the
least such name is. -/
theorem apply_root_by_root (s : Store) (es : List Effect) :
    ((∀ e ∈ es, s.hasRoot e.target.root = true) →
      ((∃ s' as, s.apply es = .ok (s', as)) ↔
        ∀ root v, s.readRoot? root = some v → ∃ w, replay (effectsOn root es) v = .ok w) ∧
      (∀ s' as, s.apply es = .ok (s', as) → s.attempt es = (s', .ok as) ∧
        (∀ root v, s.readRoot? root = some v →
          ∃ w, replay (effectsOn root es) v = .ok w ∧ s'.readRoot? root = some w) ∧
        (∀ root, effectsOn root es = [] → s'.readRoot? root = s.readRoot? root) ∧
        ∀ es', (∀ root, effectsOn root es' = effectsOn root es) →
          ∃ as', s.apply es' = .ok (s', as')) ∧
      ∀ fault, s.apply es = .error fault → s.attempt es = (s, .error fault) ∧
        ∃ i e s' as v cause, es[i]? = some e ∧
          IsLeast {j | ∃ fault', s.apply (es.take (j + 1)) = .error fault'} i ∧
          s.apply (es.take i) = .ok (s', as) ∧ s'.readRoot? e.target.root = some v ∧
          apply e.operation e.value e.target.rest v = .error cause ∧
          fault = .rejected i e.operation e.target.text cause) ∧
    ((∃ e ∈ es, s.hasRoot e.target.root = false) →
      ∃ root, s.apply es = .error (.unknownRoot root) ∧
        s.attempt es = (s, .error (.unknownRoot root)) ∧
        IsLeast {root | (∃ e ∈ es, e.target.root = root) ∧ s.hasRoot root = false} root) := by
  refine ⟨fun hr => ⟨⟨?_, ?_⟩, ?_, ?_⟩, ?_⟩
  · rintro ⟨s', as, h⟩ root v hv
    obtain ⟨final, hw, -⟩ := Store.apply_eq_ok hr h
    obtain ⟨w, hre, -⟩ := (Store.replay_of_writes hw root).1 v hv
    exact ⟨w, hre⟩
  · intro h
    obtain ⟨final, as, hw⟩ := Store.writes_of_replay hr h
    obtain ⟨s', hs, -⟩ := Store.apply_of_writes hr hw
    exact ⟨s', as, hs⟩
  · intro s' as h
    obtain ⟨final, hw, hs'⟩ := Store.apply_eq_ok hr h
    have hre := Store.replay_of_writes hw
    refine ⟨Store.attempt_eq_ok.1 h, fun root v hv => ?_, fun root hn => ?_,
      fun es' he => Store.apply_of_effectsOn hr he h⟩
    · rw [hs']
      exact (hre root).1 v hv
    · rw [hs']
      cases hv : s.readRoot? root with
      | none => exact (hre root).2 hv
      | some v =>
        obtain ⟨w, hw, hf⟩ := (hre root).1 v hv
        rw [hn] at hw
        cases hw
        exact hf
  · exact fun fault h => ⟨Store.attempt_eq_error.1 h, Store.apply_eq_error hr h⟩
  · intro h
    obtain ⟨root, hfail, hleast⟩ := Store.apply_unknownRoot h
    exact ⟨root, hfail, Store.attempt_eq_error.1 hfail, hleast⟩

def road : Store :=
  ⟨[("character", .obj [("hp", .int 10)]), ("gameState", .obj [("turn", .int 1)])]⟩

def losesHp (n : Int) : Effect := ⟨⟨"character", ["hp"]⟩, .add, .int (-n)⟩

def nextTurn : Effect := ⟨⟨"gameState", ["turn"]⟩, .add, .int 1⟩

def nightfall : Effect := ⟨⟨"gameState", ["turn", "night"]⟩, .set, .bool true⟩

def joins (root : String) : Effect := ⟨⟨root, ["size"]⟩, .add, .int 1⟩

theorem apply_root_by_root_road :
    (∃ s' as, road.apply [losesHp 3, nextTurn, losesHp 2] = .ok (s', as) ∧
      s'.readRoot? "character" = some (.obj [("hp", .int 5)]) ∧
      s'.readRoot? "gameState" = some (.obj [("turn", .int 2)]) ∧
      ∃ as', road.apply [nextTurn, losesHp 3, losesHp 2] = .ok (s', as')) ∧
    (∃ cause, road.attempt [losesHp 3, nightfall, nextTurn] =
      (road, .error (.rejected 1 .set "gameState.turn.night" cause))) ∧
    road.attempt [losesHp 3, joins "party", joins "army"] =
      (road, .error (.unknownRoot "army")) := by
  refine ⟨?_, ?_, ?_⟩
  · have hroots : ∀ e ∈ [losesHp 3, nextTurn, losesHp 2], road.hasRoot e.target.root = true := by
      decide
    have happly : ∃ s' as, road.apply [losesHp 3, nextTurn, losesHp 2] = .ok (s', as) :=
      ⟨_, _, rfl⟩
    obtain ⟨s', as, h⟩ := happly
    obtain ⟨-, hread, -, hswap⟩ :=
      ((apply_root_by_root road [losesHp 3, nextTurn, losesHp 2]).1 hroots).2.1 s' as h
    obtain ⟨_, hc, hcharacter⟩ := hread "character" _ rfl
    obtain ⟨_, hg, hstate⟩ := hread "gameState" _ rfl
    cases hc
    cases hg
    refine ⟨s', as, h, hcharacter, hstate, hswap _ fun root => ?_⟩
    by_cases hroot : "character" = root
    · subst hroot
      rfl
    · simp [effectsOn, losesHp, nextTurn, List.filter_cons, hroot]
  · have hroots : ∀ e ∈ [losesHp 3, nightfall, nextTurn], road.hasRoot e.target.root = true := by
      decide
    have hfail : ∃ cause, road.apply [losesHp 3, nightfall, nextTurn] =
        .error (.rejected 1 .set "gameState.turn.night" cause) := ⟨_, rfl⟩
    obtain ⟨cause, hfail⟩ := hfail
    exact ⟨cause,
      (((apply_root_by_root road [losesHp 3, nightfall, nextTurn]).1 hroots).2.2 _ hfail).1⟩
  · have hroots : ∃ e ∈ [losesHp 3, joins "party", joins "army"],
        road.hasRoot e.target.root = false := by
      decide
    obtain ⟨root, -, hattempt, ⟨⟨e, he, rfl⟩, hroot⟩, hleast⟩ :=
      (apply_root_by_root road [losesHp 3, joins "party", joins "army"]).2 hroots
    have harmy : e.target.root ≤ "army" := hleast ⟨⟨joins "army", by simp, rfl⟩, rfl⟩
    simp only [List.mem_cons, List.not_mem_nil, or_false] at he
    rcases he with rfl | rfl | rfl
    · cases hroot
    · have hlt : "army" < "party" := String.lt_iff_toList_lt.2 (by decide)
      exact absurd harmy (not_le.2 hlt)
    · exact hattempt

end Rulebook.State
