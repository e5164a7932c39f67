import Rulebook.Call.Invocation
import Rulebook.Proofs.Except
import Rulebook.Proofs.Staging

namespace Rulebook.Call

open Ruleset

def Outcome.applied : Outcome → List State.Applied
  | succeeded applied => applied
  | _ => []

/-- An effect with the arguments put in, on a root that the store has. -/
structure Fills (store : State.Store) (arguments : Fields Json) (spec : EffectSpec)
    (e : State.Effect) : Prop where
  target : ∃ text, Template.substitute spec.target arguments = .ok text ∧
    State.Path.parse text = .ok e.target
  operation : e.operation = spec.operation
  value : Template.resolve arguments spec.value = .ok e.value
  root : store.hasRoot e.target.root = true

structure Resolves (store : State.Store) (f : Function) (args : Fields Json) (r : Resolved) :
    Prop where
  bound : bind f.parameters args = .ok r.arguments
  rules : List.Forall₂ (fun rule s => Template.substituteRule rule r.arguments = .ok s)
    f.validations r.validations
  effects : List.Forall₂ (Fills store r.arguments) f.effects r.effects

/-- The call gets as far as its rules: they pass the filter and a batch is open on the roots to be
written. -/
structure Reaches (store : State.Store) (f : Function) (args : Fields Json) (r : Resolved)
    (batch : State.Batch) : Prop where
  resolved : Resolves store f args r
  safe : ∀ rule ∈ r.validations, Rule.isSafe rule = true
  begun : store.begin (State.rootsOf r.effects) = .ok batch

/-- The rules of a call are satisfied and its effects can be applied, which gives `final`. -/
structure Granted (c : Callable) (evaluate : Evaluator) (args : Fields Json) (store : State.Store)
    (r : Resolved) (batch : State.Batch) (final : State.Store) (applied : List State.Applied) :
    Prop where
  reached : Reaches store c.function args r batch
  satisfied : ∀ rule ∈ r.validations, ∃ v,
    evaluate rule (context store c.document.gameData batch r.arguments) = .ok v ∧ v.truthy = true
  written : store.writes r.effects = some (final, applied)

def unsatisfied (i : Nat) (rules : List String) (values : List Json) : List FailedRule :=
  (((rules.zip values).zipIdx i).filter fun p => !p.1.2.truthy).map fun p => ⟨p.2, p.1.1, p.1.2⟩

theorem structural_eq_ok {α : Type} {x : Except Template.Fault α} {a : α} :
    structural x = .ok a ↔ x = .ok a := by
  cases x <;> simp [structural, fail]

theorem resolveRule_eq_ok {arguments : Fields Json} {rule s : String} :
    resolveRule arguments rule = .ok s ↔ Template.substituteRule rule arguments = .ok s := by
  unfold resolveRule
  split <;> simp_all [fail]

theorem resolveEffect_eq_ok {store : State.Store} {arguments : Fields Json} {spec : EffectSpec}
    {e : State.Effect} :
    resolveEffect store arguments spec = .ok e ↔ Fills store arguments spec e := by
  simp only [resolveEffect, bind_eq_ok, structural_eq_ok]
  constructor
  · rintro ⟨text, ht, value, hv, h⟩
    split at h
    · cases h
    · next path hp =>
      split at h
      · next hr =>
        cases h
        exact ⟨⟨text, ht, hp⟩, rfl, hv, hr⟩
      · cases h
  · rintro ⟨⟨text, ht, hp⟩, ho, hv, hr⟩
    refine ⟨text, ht, e.value, hv, ?_⟩
    rw [hp]
    simp [hr, ← ho]

theorem resolve_eq_ok {store : State.Store} {f : Function} {args : Fields Json} {r : Resolved} :
    resolve store f args = .ok r ↔ Resolves store f args r := by
  rw [resolve]
  cases hb : bind f.parameters args with
  | error faults =>
    simp only [fail, bind_eq_ok]
    constructor
    · rintro ⟨_, h, _⟩
      cases h
    · intro h
      cases hb.symm.trans h.bound
  | ok arguments =>
    simp only [bind_eq_ok, mapM_eq_ok, resolveRule_eq_ok, resolveEffect_eq_ok]
    constructor
    · rintro ⟨_, h, rules, hr, effects, he, h'⟩
      cases h
      cases h'
      exact ⟨hb, hr, he⟩
    · intro h
      have ha : arguments = r.arguments := by
        simpa only [hb, Except.ok.injEq] using h.bound
      subst ha
      exact ⟨r.arguments, rfl, r.validations, h.rules, r.effects, h.effects, rfl⟩

theorem unsafeConstructs_eq_nil {i : Nat} {rules : List String} :
    unsafeConstructs i rules = [] ↔ ∀ rule ∈ rules, Rule.isSafe rule = true := by
  induction rules generalizing i with
  | nil => simp [unsafeConstructs]
  | cons rule rules ih => simp [unsafeConstructs, ih, Rule.isSafe]

/-- Every rule is evaluated, and those that fail are listed in order. -/
theorem failedRules_eq_ok {evaluate : Evaluator} {context : Fields Json} {i : Nat}
    {rules : List String} {broken : List FailedRule} :
    failedRules evaluate context i rules = .ok broken ↔
      ∃ values, List.Forall₂ (fun rule v => evaluate rule context = .ok v) rules values ∧
        broken = unsatisfied i rules values := by
  induction rules generalizing i broken with
  | nil => simp [failedRules, unsatisfied, eq_comm]
  | cons rule rules ih =>
    rw [failedRules]
    cases hv : evaluate rule context with
    | error e => simp [List.forall₂_cons_left_iff, hv]
    | ok v =>
      simp only [bind_eq_ok, ih, List.forall₂_cons_left_iff, hv, Except.ok.injEq, pure,
        Except.pure]
      constructor
      · rintro ⟨rest, ⟨values, hvs, rfl⟩, rfl⟩
        refine ⟨v :: values, ⟨v, values, rfl, hvs, rfl⟩, ?_⟩
        cases hp : v.truthy <;> simp [unsatisfied, hp]
      · rintro ⟨_, ⟨_, values, rfl, hvs, rfl⟩, rfl⟩
        refine ⟨_, ⟨values, hvs, rfl⟩, ?_⟩
        cases hp : v.truthy <;> simp [unsatisfied, hp]

theorem unsatisfied_eq_nil {i : Nat} {rules : List String} {values : List Json}
    (h : rules.length = values.length) :
    unsatisfied i rules values = [] ↔ ∀ v ∈ values, v.truthy = true := by
  induction rules generalizing i values with
  | nil => cases values <;> simp_all [unsatisfied]
  | cons rule rules ih =>
    cases values with
    | nil => simp at h
    | cons v values =>
      have hl : rules.length = values.length := by simpa using h
      have hi := ih (i := i + 1) hl
      cases hp : v.truthy <;> simp_all [unsatisfied]

theorem failedRules_eq_nil {evaluate : Evaluator} {context : Fields Json} {i : Nat}
    {rules : List String} :
    failedRules evaluate context i rules = .ok [] ↔
      ∀ rule ∈ rules, ∃ v, evaluate rule context = .ok v ∧ v.truthy = true := by
  rw [failedRules_eq_ok]
  constructor
  · rintro ⟨values, hvs, he⟩ rule hm
    have ht := (unsatisfied_eq_nil hvs.length_eq).1 he.symm
    clear he
    induction hvs with
    | nil => cases hm
    | cons hv hvs ih =>
      rcases List.mem_cons.1 hm with rfl | hm
      · exact ⟨_, hv, ht _ (by simp)⟩
      · exact ih hm fun v hv => ht v (by simp [hv])
  · intro h
    have hex : ∃ values, List.Forall₂ (fun rule v => evaluate rule context = .ok v) rules values ∧
        ∀ v ∈ values, v.truthy = true := by
      clear i
      induction rules with
      | nil => exact ⟨[], .nil, by simp⟩
      | cons rule rules ih =>
        obtain ⟨v, hv, ht⟩ := h rule (by simp)
        obtain ⟨values, hvs, hts⟩ := ih fun r hr => h r (by simp [hr])
        exact ⟨v :: values, .cons hv hvs, by simpa [ht] using hts⟩
    obtain ⟨values, hvs, hts⟩ := hex
    exact ⟨values, hvs, ((unsatisfied_eq_nil hvs.length_eq).2 hts).symm⟩

theorem failedRules_congr {evaluate evaluate' : Evaluator} {context : Fields Json}
    {rules : List String} (h : ∀ rule ∈ rules, evaluate' rule context = evaluate rule context)
    (i : Nat) : failedRules evaluate' context i rules = failedRules evaluate context i rules := by
  induction rules generalizing i with
  | nil => rfl
  | cons rule rules ih =>
    rw [failedRules, failedRules, h rule (by simp), ih fun r hr => h r (by simp [hr])]

section

variable {evaluate : Evaluator} {gameData : Fields Json} {f : Function} {args : Fields Json}
  {store : State.Store} {r : Resolved} {batch : State.Batch}

/-- A call that gets to its rules is decided by their values and by its effects. -/
theorem perform_of_reaches (h : Reaches store f args r batch) :
    perform evaluate gameData f args store =
      match failedRules evaluate (context store gameData batch r.arguments) 0 r.validations with
      | .error (i, e) => fail .runtime (ruleLabel i ++ e.message) []
      | .ok [] =>
        match batch.stage 0 r.effects with
        | (batch, .ok applied) => .ok (.succeeded applied, batch.commit store)
        | (_, .error e) => fail .application e.message []
      | .ok broken => .ok (.rejected r.validations.length broken, store) := by
  have hf : (!(unsafeConstructs 0 r.validations).isEmpty) = false := by
    simp [unsafeConstructs_eq_nil.2 h.safe]
  rw [perform, resolve_eq_ok.2 h.resolved, ok_bind, if_neg (by simp [hf]), h.begun]
  rfl

/-- A call that does not get to its rules fails without a look at any value. -/
theorem perform_of_not_reaches (h : ¬ ∃ r batch, Reaches store f args r batch)
    (gameData : Fields Json) :
    ∃ e, ∀ evaluate, perform evaluate gameData f args store = .error e := by
  cases hr : resolve store f args with
  | error e => exact ⟨e, fun evaluate => by rw [perform, hr, error_bind]⟩
  | ok r =>
    -- resolved and safe, only the roots can keep it from its rules
    by_cases hu : unsafeConstructs 0 r.validations = []
    · cases hb : store.begin (State.rootsOf r.effects) with
      | error fault =>
        refine ⟨⟨.application, fault.message, []⟩, fun evaluate => ?_⟩
        rw [perform, hr, ok_bind, if_neg (by simp [hu]), hb]
        rfl
      | ok batch =>
        exact absurd ⟨r, batch, resolve_eq_ok.1 hr, unsafeConstructs_eq_nil.1 hu, hb⟩ h
    · refine ⟨⟨.securityViolation, toString (unsafeConstructs 0 r.validations).length ++
        " unsafe construct(s) in rule expressions", unsafeConstructs 0 r.validations⟩,
        fun evaluate => ?_⟩
      rw [perform, hr, ok_bind, if_pos (by simp [hu])]
      rfl

theorem Reaches.unique {r' : Resolved} {batch' : State.Batch} (h : Reaches store f args r batch)
    (h' : Reaches store f args r' batch') : r = r' ∧ batch = batch' := by
  have hr : r = r' := by
    simpa only [resolve_eq_ok.2 h'.resolved, Except.ok.injEq, eq_comm] using
      resolve_eq_ok.2 h.resolved
  subst hr
  have hb := h.begun.symm.trans h'.begun
  exact ⟨rfl, Except.ok.inj hb⟩

/-- The effects of a call that gets to its rules act on the store as if each were applied to it. -/
theorem Reaches.stage_cases (h : Reaches store f args r batch) :
    (∃ b' final applied, batch.stage 0 r.effects = (b', .ok applied) ∧
      store.writes r.effects = some (final, applied) ∧ b'.Mirrors store final) ∨
    (∃ b' fault, batch.stage 0 r.effects = (b', .error fault) ∧
      store.writes r.effects = none) := by
  obtain ⟨hm, hroots⟩ := State.Store.begin_mirrors h.begun
  exact State.Batch.stage_cases hm 0 r.effects fun e he => (hroots _).2 (State.mem_rootsOf he)

end

section

variable {c : Callable} {evaluate : Evaluator} {args : Fields Json} {store : State.Store}
  {r : Resolved} {batch : State.Batch} {final : State.Store} {applied : List State.Applied}

theorem invoke_of_granted (h : Granted c evaluate args store r batch final applied) :
    ∃ b' : State.Batch, b'.Mirrors store final ∧
      c.invoke evaluate args store = (c.report (.succeeded applied), b'.commit store) := by
  rcases h.reached.stage_cases with ⟨b', final', applied', hs, hw, hm⟩ | ⟨_, _, _, hw⟩
  · cases h.written.symm.trans hw
    refine ⟨b', hm, ?_⟩
    simp only [Callable.invoke, perform_of_reaches h.reached,
      failedRules_eq_nil.2 h.satisfied, hs]
  · cases h.written.symm.trans hw

/-- A call that is not granted changes nothing, whatever stops it. -/
theorem invoke_of_not_granted
    (h : ¬ ∃ r batch final applied, Granted c evaluate args store r batch final applied) :
    (c.invoke evaluate args store).1.outcome.success = false ∧
      (c.invoke evaluate args store).1.outcome.applied = [] ∧
      (c.invoke evaluate args store).2 = store := by
  by_cases hreach : ∃ r batch, Reaches store c.function args r batch
  · obtain ⟨r, batch, hr⟩ := hreach
    cases hf : failedRules evaluate (context store c.document.gameData batch r.arguments) 0
        r.validations with
    | error e =>
      simp only [Callable.invoke, perform_of_reaches hr, hf]
      exact ⟨rfl, rfl, rfl⟩
    | ok broken =>
      cases broken with
      | cons b bs =>
        simp only [Callable.invoke, perform_of_reaches hr, hf]
        exact ⟨rfl, rfl, trivial⟩
      | nil =>
        rcases hr.stage_cases with ⟨b', final, applied, _, hw, _⟩ | ⟨b', fault, hs, _⟩
        · exact absurd ⟨r, batch, final, applied, hr, failedRules_eq_nil.1 hf, hw⟩ h
        · simp only [Callable.invoke, perform_of_reaches hr, hf, hs]
          exact ⟨rfl, rfl, rfl⟩
  · obtain ⟨e, he⟩ := perform_of_not_reaches hreach c.document.gameData
    simp only [Callable.invoke, he]
    exact ⟨rfl, rfl, trivial⟩

theorem invoke_rejected {n : Nat} {broken : List FailedRule}
    (h : (c.invoke evaluate args store).1.outcome = .rejected n broken) :
    ∃ r batch values, Reaches store c.function args r batch ∧
      List.Forall₂ (fun rule v =>
        evaluate rule (context store c.document.gameData batch r.arguments) = .ok v)
        r.validations values ∧
      n = r.validations.length ∧ broken = unsatisfied 0 r.validations values ∧ broken ≠ [] := by
  by_cases hreach : ∃ r batch, Reaches store c.function args r batch
  · obtain ⟨r, batch, hr⟩ := hreach
    cases hf : failedRules evaluate (context store c.document.gameData batch r.arguments) 0
        r.validations with
    | error e =>
      simp only [Callable.invoke, perform_of_reaches hr, hf] at h
      cases h
    | ok found =>
      obtain ⟨values, hvs, he⟩ := failedRules_eq_ok.1 hf
      cases found with
      | nil =>
        rcases hr.stage_cases with ⟨b', final, applied, hs, _, _⟩ | ⟨b', fault, hs, _⟩
        · simp only [Callable.invoke, perform_of_reaches hr, hf, hs] at h
          cases h
        · simp only [Callable.invoke, perform_of_reaches hr, hf, hs] at h
          cases h
      | cons b bs =>
        simp only [Callable.invoke, perform_of_reaches hr, hf] at h
        cases h
        exact ⟨r, batch, values, hr, hvs, rfl, he, by simp⟩
  · obtain ⟨e, he⟩ := perform_of_not_reaches hreach c.document.gameData
    simp only [Callable.invoke, he] at h
    cases h

theorem invoke_congr {evaluate' : Evaluator}
    (h : ∀ r batch, Reaches store c.function args r batch → ∀ rule ∈ r.validations,
      evaluate' rule (context store c.document.gameData batch r.arguments) =
        evaluate rule (context store c.document.gameData batch r.arguments)) :
    c.invoke evaluate' args store = c.invoke evaluate args store := by
  by_cases hreach : ∃ r batch, Reaches store c.function args r batch
  · obtain ⟨r, batch, hr⟩ := hreach
    simp only [Callable.invoke, perform_of_reaches hr, failedRules_congr (h r batch hr)]
  · obtain ⟨e, he⟩ := perform_of_not_reaches hreach c.document.gameData
    simp only [Callable.invoke, he]

end

/-- A call ends in one of two ways. Either it is granted, and then it reports the effects of the
function one for one and the store has them all in order; or it changes nothing. A rejection lists
each rule that was not satisfied. Evaluators are told apart only by calls that get to their rules,
and only by the values of these. -/
theorem invoke_all_or_nothing (c : Callable) (evaluate : Evaluator) (args : Fields Json)
    (store : State.Store) :
    (((c.invoke evaluate args store).1.outcome.success = true ∧
        ∃ r batch final applied, Granted c evaluate args store r batch final applied ∧
          (c.invoke evaluate args store).1.outcome.applied = applied ∧
          applied.map (·.effect) = r.effects ∧
          (∀ root, (c.invoke evaluate args store).2.readRoot? root = final.readRoot? root) ∧
          (store.roots.Sorted → (c.invoke evaluate args store).2 = final)) ∨
      ((c.invoke evaluate args store).1.outcome.success = false ∧
        (¬ ∃ r batch final applied, Granted c evaluate args store r batch final applied) ∧
        (c.invoke evaluate args store).1.outcome.applied = [] ∧
        (c.invoke evaluate args store).2 = store)) ∧
    (∀ n broken, (c.invoke evaluate args store).1.outcome = .rejected n broken →
      ∃ r batch values, Reaches store c.function args r batch ∧
        List.Forall₂ (fun rule v =>
          evaluate rule (context store c.document.gameData batch r.arguments) = .ok v)
          r.validations values ∧
        n = r.validations.length ∧ broken = unsatisfied 0 r.validations values ∧ broken ≠ []) ∧
    (∀ evaluate' : Evaluator,
      (∀ r batch, Reaches store c.function args r batch → ∀ rule ∈ r.validations,
        evaluate' rule (context store c.document.gameData batch r.arguments) =
          evaluate rule (context store c.document.gameData batch r.arguments)) →
      c.invoke evaluate' args store = c.invoke evaluate args store) := by
  refine ⟨?_, fun n broken => invoke_rejected, fun evaluate' => invoke_congr⟩
  by_cases hg : ∃ r batch final applied, Granted c evaluate args store r batch final applied
  · obtain ⟨r, batch, final, applied, h⟩ := hg
    obtain ⟨b', hm, he⟩ := invoke_of_granted h
    rw [he]
    refine .inl ⟨rfl, r, batch, final, applied, h, rfl, State.Store.writes_effects h.written,
      State.Batch.readRoot?_commit hm, fun hs => ?_⟩
    exact State.Batch.commit_eq hm hs (State.Store.writes_sorted hs h.written)
  · obtain ⟨hs, ha, hu⟩ := invoke_of_not_granted hg
    exact .inr ⟨hs, hg, ha, hu⟩

def crossing : Function where
  id := "cross"
  name := "cross"
  description := ""
  parameters := [⟨"fare", .number, true, "", none, none⟩]
  validations := ["character.coins >= \x7bfare\x7d"]
  effects := [⟨"character.coins", .add, .int (-3)⟩, ⟨"gameState.till", .add, .str "\x7bfare\x7d"⟩]

def ferry : Callable :=
  ⟨crossing, .exploration,
    ⟨⟨"ferry", "Ferry", "1", [], none⟩, [(.exploration, [crossing])], [], []⟩⟩

def passenger (coins till : Int) : State.Store :=
  ⟨[("character", .obj [("coins", .int coins)]), ("gameState", .obj [("till", .int till)])]⟩

def crossed : Resolved where
  arguments := [("fare", .int 3)]
  validations := ["character.coins >= 3"]
  effects := [⟨⟨"character", ["coins"]⟩, .add, .int (-3)⟩, ⟨⟨"gameState", ["till"]⟩, .add, .int 3⟩]

/-- To this evaluator every rule asks for three coins. -/
def asksThree : Evaluator := fun _ seen =>
  match seen.get? "character" with
  | some (.obj [("coins", .int n)]) => .ok (.bool (decide (3 ≤ n)))
  | _ => .ok .null

theorem reaches_crossing (coins till : Int) :
    Reaches (passenger coins till) crossing [("fare", .int 3)] crossed
      ((passenger coins till).hold ["character", "gameState"]) where
  resolved :=
    { bound := rfl
      rules := .cons (by cbv) .nil
      effects := .cons ⟨⟨"character.coins", by cbv, rfl⟩, rfl, rfl, rfl⟩
        (.cons ⟨⟨"gameState.till", by cbv, rfl⟩, rfl, by cbv, rfl⟩ .nil) }
  safe := by decide +kernel
  begun := rfl

theorem invoke_all_or_nothing_ferry :
    ((ferry.invoke asksThree [("fare", .int 3)] (passenger 10 0)).1.outcome.applied.map
        (·.effect) = crossed.effects ∧
      (ferry.invoke asksThree [("fare", .int 3)] (passenger 10 0)).2 = passenger 7 3) ∧
    (ferry.invoke asksThree [("fare", .int 3)] (passenger 2 0)).1.outcome =
        .rejected 1 [⟨0, "character.coins >= 3", .bool false⟩] ∧
      (ferry.invoke asksThree [("fare", .int 3)] (passenger 2 0)).2 = passenger 2 0 := by
  constructor
  · have hrich := reaches_crossing 10 0
    have hgranted : Granted ferry asksThree [("fare", .int 3)] (passenger 10 0) crossed
        ((passenger 10 0).hold ["character", "gameState"]) (passenger 7 3)
        [⟨⟨⟨"character", ["coins"]⟩, .add, .int (-3)⟩, ⟨.int 10, .int 7⟩⟩,
          ⟨⟨⟨"gameState", ["till"]⟩, .add, .int 3⟩, ⟨.int 0, .int 3⟩⟩] :=
      { reached := hrich
        satisfied := by
          rintro rule (_ | ⟨_, ⟨⟩⟩)
          exact ⟨.bool true, rfl, rfl⟩
        written := rfl }
    obtain ⟨⟨-, r, batch, final, applied, hg, happlied, heffects, -, hstore⟩ | ⟨-, hnot, -⟩, -⟩ :=
      invoke_all_or_nothing ferry asksThree [("fare", .int 3)] (passenger 10 0)
    · obtain ⟨rfl, rfl⟩ := hg.reached.unique hrich
      cases hg.written.symm.trans hgranted.written
      rw [happlied]
      exact ⟨heffects, hstore (List.pairwise_pair.2 (String.lt_iff_toList_lt.2 (by decide)))⟩
    · exact absurd ⟨_, _, _, _, hgranted⟩ hnot
  · have houtcome : (ferry.invoke asksThree [("fare", .int 3)] (passenger 2 0)).1.outcome =
        .rejected 1 [⟨0, "character.coins >= 3", .bool false⟩] := by
      have hperform : perform asksThree ferry.document.gameData ferry.function
          [("fare", .int 3)] (passenger 2 0) =
            .ok (.rejected 1 [⟨0, "character.coins >= 3", .bool false⟩], passenger 2 0) :=
        (perform_of_reaches (reaches_crossing 2 0)).trans rfl
      rw [Callable.invoke, hperform]
      rfl
    obtain ⟨⟨hs, -⟩ | ⟨-, -, -, hstore⟩, -⟩ :=
      invoke_all_or_nothing ferry asksThree [("fare", .int 3)] (passenger 2 0)
    · rw [houtcome] at hs
      cases hs
    · exact ⟨houtcome, hstore⟩

end Rulebook.Call
