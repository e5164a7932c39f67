import Rulebook.Session
import Rulebook.Proofs.Except
import Rulebook.Proofs.Fields

namespace Rulebook.Session

open Ruleset Call

structure Game where
  session : Session
  state : State.Store
  snapshots : List (Option Active)

inductive Operation where
  | load (source : ByteArray)
  | loadById (id : String)
  | setActive (id : String)
  | activate (id : String)
  | setPhase (p : Phase)
  | invoke (name : String) (args : Fields Json)
  | invokeIn (p : Phase) (name : String) (args : Fields Json)
  | snapshot

inductive Outcome where
  | loaded (result : Except Fault Document)
  | activated (result : Except Fault Active)
  | phaseSet
  | answered (report : Report)
  | held (snapshot : Option Active)

namespace Operation

def loads : Operation → Prop
  | load _ | loadById _ => True
  | _ => False

def invokes : Operation → Prop
  | invoke _ _ | invokeIn _ _ _ => True
  | _ => False

end Operation

namespace Outcome

def fails : Outcome → Prop
  | loaded (.error _) | activated (.error _) => True
  | answered r => r.outcome.success = false
  | _ => False

def activation? : Outcome → Option Active
  | activated (.ok a) => some a
  | _ => none

theorem activation?_eq_some {o : Outcome} {a : Active} :
    o.activation? = some a ↔ o = .activated (.ok a) := by
  unfold activation?
  split <;> simp_all

end Outcome

namespace Game

def start (catalog : Option Catalog) (state : State.Store) : Game :=
  ⟨Session.start catalog, state, []⟩

def keep {α β : Type} (s : Session) : Except α (β × Session) → Session × Except α β
  | .ok (b, s') => (s', .ok b)
  | .error e => (s, .error e)

def answer (evaluate : Evaluator) (g : Game) : Operation → Game × Outcome
  | .load source =>
    let (s, result) := keep g.session (g.session.load source)
    ({ g with session := s }, .loaded result)
  | .loadById id =>
    let (s, result) := keep g.session (g.session.loadById id)
    ({ g with session := s }, .loaded result)
  | .setActive id =>
    let (s, result) := keep g.session (g.session.setActive g.state.names id)
    ({ g with session := s }, .activated result)
  | .activate id =>
    let (result, s) := g.session.activate g.state.names id
    ({ g with session := s }, .activated result)
  | .setPhase p => ({ g with session := g.session.setPhase p }, .phaseSet)
  | .invoke name args =>
    let (report, state) := g.session.invoke evaluate name args g.state
    ({ g with state := state }, .answered report)
  | .invokeIn p name args =>
    let (report, state) := g.session.invokeIn evaluate p name args g.state
    ({ g with state := state }, .answered report)
  | .snapshot =>
    ({ g with snapshots := g.snapshots ++ [g.session.active] }, .held g.session.active)

def run (evaluate : Evaluator) (g : Game) : List Operation → Game × List Outcome
  | [] => (g, [])
  | op :: ops =>
    let (g, outcome) := g.answer evaluate op
    let (g, outcomes) := g.run evaluate ops
    (g, outcome :: outcomes)

end Game

variable {s s' : Session} {roots : List String} {id : String} {d : Document} {a : Active}

theorem setActive_eq_ok : s.setActive roots id = .ok (a, s') ↔
    ∃ d callables, Fields.get? s.loaded id = some d ∧ allCallables roots d = .ok callables ∧
      a = ⟨d, s.generation + 1, callables⟩ ∧
      s' = { s with active := some a, previous := s.active, generation := s.generation + 1 } := by
  unfold setActive
  cases Fields.get? s.loaded id with
  | none => simp
  | some d =>
    simp only [Option.some.injEq, ↓existsAndEq, true_and]
    cases allCallables roots d with
    | error vs => simp
    | ok callables =>
      simp only [Except.ok.injEq, Prod.mk.injEq, ↓existsAndEq, true_and]
      constructor
      · rintro ⟨rfl, rfl⟩
        exact ⟨rfl, rfl⟩
      · rintro ⟨rfl, rfl⟩
        exact ⟨rfl, rfl⟩

theorem load_eq_ok {source : ByteArray} :
    s.load source = .ok (d, s') ↔ Ruleset.load source = .ok d ∧ s' = s.add d := by
  unfold load
  cases Ruleset.load source with
  | error vs => simp
  | ok d' =>
    simp only [Except.ok.injEq, Prod.mk.injEq]
    exact ⟨fun ⟨hd, hs⟩ => ⟨hd, hd ▸ hs.symm⟩, fun ⟨hd, hs⟩ => ⟨hd, by rw [hs, hd]⟩⟩

theorem loadById_eq_ok : s.loadById id = .ok (d, s') ↔
    ∃ e, s.catalog.bind (·.find? id) = some e ∧ e.load = .ok d ∧ s' = s.add d := by
  unfold loadById
  cases s.catalog.bind (·.find? id) with
  | none => simp
  | some e =>
    simp only [Option.some.injEq, ↓existsAndEq, true_and]
    cases e.load with
    | error vs => simp
    | ok d' =>
      simp only [Except.ok.injEq, Prod.mk.injEq]
      exact ⟨fun ⟨hd, hs⟩ => ⟨hd, hd ▸ hs.symm⟩, fun ⟨hd, hs⟩ => ⟨hd, by rw [hs, hd]⟩⟩

/-- The document that an id asks for is loaded under `key`: it was already, if the id has a
version, or else it comes from the catalog. -/
inductive Readies (s : Session) (id : String) : String → Session → Prop
  | loaded {full : DocumentId} (hid : DocumentId.parse? id = some full)
    (hl : Fields.has s.loaded full.text = true) : Readies s id full.text s
  | catalogued {d : Document} {s' : Session} (h : s.loadById id = .ok (d, s')) :
    Readies s id d.id.text s'

theorem activate_cases (s : Session) (roots : List String) (id : String) :
    (∃ e, s.activate roots id = (.error e, s)) ∨
    ∃ key ready, s.Readies id key ready ∧
      ((∃ e, ready.setActive roots key = .error e ∧ s.activate roots id = (.error e, ready)) ∨
        ∃ a s', ready.setActive roots key = .ok (a, s') ∧ s.activate roots id = (.ok a, s')) := by
  have hcatalog : (∃ e, s.loadById id = .error e) ∨ ∃ d s', s.loadById id = .ok (d, s') := by
    cases s.loadById id with
    | error e => exact .inl ⟨e, rfl⟩
    | ok r => exact .inr ⟨r.1, r.2, rfl⟩
  have hready : (∃ e, s.activate roots id = (.error e, s)) ∨ ∃ key ready, s.Readies id key ready ∧
      (∀ e, ready.setActive roots key = .error e → s.activate roots id = (.error e, ready)) ∧
      ∀ a s', ready.setActive roots key = .ok (a, s') → s.activate roots id = (.ok a, s') := by
    unfold activate
    dsimp only
    cases hid : DocumentId.parse? id with
    | none =>
      rcases hcatalog with ⟨e, he⟩ | ⟨d, s', hd⟩
      · exact .inl ⟨e, by simp [he, Except.map]⟩
      · simp only [hd, Except.map]
        exact .inr ⟨_, _, .catalogued hd, fun e he => by simp only [he],
          fun a t ha => by simp only [ha]⟩
    | some full =>
      by_cases hl : Fields.has s.loaded full.text = true
      · simp only [hl, if_true]
        exact .inr ⟨_, _, .loaded hid hl, fun e he => by simp only [he],
          fun a t ha => by simp only [ha]⟩
      · rcases hcatalog with ⟨e, he⟩ | ⟨d, s', hd⟩
        · exact .inl ⟨e, by simp [hl, he, Except.map]⟩
        · simp only [hl, Bool.false_eq_true, if_false, hd, Except.map]
          exact .inr ⟨_, _, .catalogued hd, fun e he => by simp only [he],
            fun a t ha => by simp only [ha]⟩
  rcases hready with h | ⟨key, ready, hr, herror, hok⟩
  · exact .inl h
  · refine .inr ⟨key, ready, hr, ?_⟩
    cases hs : ready.setActive roots key with
    | error e => exact .inl ⟨e, rfl, herror e hs⟩
    | ok r => exact .inr ⟨r.1, r.2, rfl, hok _ _ hs⟩

def Grows (s s' : Session) : Prop := s' = s ∨ ∃ d, s' = s.add d

theorem Readies.grows {key : String} (h : s.Readies id key s') : s.Grows s' := by
  cases h with
  | loaded => exact .inl rfl
  | catalogued h =>
    obtain ⟨_, -, -, rfl⟩ := loadById_eq_ok.1 h
    exact .inr ⟨_, rfl⟩

def makeActive (s : Session) (a : Active) : Session :=
  { s with active := some a, previous := s.active, generation := s.generation + 1 }

namespace Game

inductive Step (g : Game) : Operation → Game → Outcome → Prop
  | loads {op : Operation} (hop : op.loads) (d : Document) :
    Step g op { g with session := g.session.add d } (.loaded (.ok d))
  | loadFails {op : Operation} (e : Fault) : Step g op g (.loaded (.error e))
  | activates {op : Operation} {s : Session} {a : Active} (hop : ¬ op.loads)
    (hs : g.session.Grows s) (ha : a.generation = s.generation + 1) :
    Step g op { g with session := s.makeActive a } (.activated (.ok a))
  | activateFails {op : Operation} {s : Session} (hs : g.session.Grows s) (e : Fault) :
    Step g op { g with session := s } (.activated (.error e))
  | setsPhase {op : Operation} (p : Phase) :
    Step g op { g with session := g.session.setPhase p } .phaseSet
  | invokes {op : Operation} (hop : op.invokes) (report : Report) (state : State.Store) :
    Step g op { g with state := state } (.answered report)
  | takes {op : Operation} : Step g op { g with snapshots := g.snapshots ++ [g.session.active] }
      (.held g.session.active)

theorem step_answer (evaluate : Evaluator) (g : Game) (op : Operation) :
    g.Step op (g.answer evaluate op).1 (g.answer evaluate op).2 := by
  cases op with
  | load source =>
    cases h : g.session.load source with
    | error e =>
      simp only [answer, h, keep]
      exact .loadFails e
    | ok r =>
      obtain ⟨-, hs⟩ := load_eq_ok.1 h
      simp only [answer, h, keep, hs]
      exact .loads (show (Operation.load source).loads from trivial) r.1
  | loadById id =>
    cases h : g.session.loadById id with
    | error e =>
      simp only [answer, h, keep]
      exact .loadFails e
    | ok r =>
      obtain ⟨-, -, -, hs⟩ := loadById_eq_ok.1 h
      simp only [answer, h, keep, hs]
      exact .loads (show (Operation.loadById id).loads from trivial) r.1
  | setActive id =>
    cases h : g.session.setActive g.state.names id with
    | error e =>
      simp only [answer, h, keep]
      exact .activateFails (.inl rfl) e
    | ok r =>
      obtain ⟨_, _, -, -, ha, hs⟩ := setActive_eq_ok.1 h
      simp only [answer, h, keep, hs]
      exact .activates (fun hop => hop) (.inl rfl) (by rw [ha])
  | activate id =>
    rcases activate_cases g.session g.state.names id with
      ⟨e, h⟩ | ⟨key, ready, hr, ⟨e, -, h⟩ | ⟨a, s', hs, h⟩⟩
    · simp only [answer, h]
      exact .activateFails (.inl rfl) e
    · simp only [answer, h]
      exact .activateFails hr.grows e
    · obtain ⟨_, _, -, -, ha, rfl⟩ := setActive_eq_ok.1 hs
      simp only [answer, h]
      exact .activates (fun hop => hop) hr.grows (by rw [ha])
  | setPhase p => exact .setsPhase p
  | invoke name args => exact .invokes (show (Operation.invoke name args).invokes from trivial) _ _
  | invokeIn p name args =>
    exact .invokes (show (Operation.invokeIn p name args).invokes from trivial) _ _
  | snapshot => exact .takes

variable {g g' : Game} {op : Operation} {outcome : Outcome} {log : List Active}

theorem Step.eq_of_fails (h : g.Step op g' outcome) (hf : outcome.fails) :
    g'.session.active = g.session.active ∧ g'.session.previous = g.session.previous ∧
      g'.session.phase = g.session.phase ∧ g'.session.generation = g.session.generation := by
  cases h with
  | loadFails | invokes => exact ⟨rfl, rfl, rfl, rfl⟩
  | activateFails hs =>
    rcases hs with rfl | ⟨d, rfl⟩
    · exact ⟨rfl, rfl, rfl, rfl⟩
    · exact ⟨rfl, rfl, rfl, rfl⟩
  | loads | activates | setsPhase | takes => cases hf

theorem Step.eq_of_loads (h : g.Step op g' outcome) (hop : op.loads) :
    g'.session.active = g.session.active ∧ g'.session.previous = g.session.previous := by
  cases h with
  | activates hno => exact absurd hop hno
  | activateFails hs =>
    rcases hs with rfl | ⟨d, rfl⟩
    · exact ⟨rfl, rfl⟩
    · exact ⟨rfl, rfl⟩
  | loads | loadFails | setsPhase | invokes | takes => exact ⟨rfl, rfl⟩

theorem Step.state_eq (h : g.Step op g' outcome) (hop : ¬ op.invokes) : g'.state = g.state := by
  cases h with
  | invokes hi => exact absurd hi hop
  | loads | loadFails | activates | activateFails | setsPhase | takes => rfl

theorem Step.snapshots_kept (h : g.Step op g' outcome) : g.snapshots <+: g'.snapshots := by
  cases h with
  | takes => exact List.prefix_append _ _
  | loads | loadFails | activates | activateFails | setsPhase | invokes => exact List.prefix_refl _

/-- What the documents that were made active so far have made of a game. -/
structure Follows (g : Game) (log : List Active) : Prop where
  active : g.session.active = log.getLast?
  previous : g.session.previous = log.dropLast.getLast?
  counted : g.session.generation = log.length
  numbered : ∀ i a, log[i]? = some a → a.generation = i + 1
  keyed : ∀ key d, Fields.get? g.session.loaded key = some d → d.id.text = key
  held : ∀ a, some a ∈ g.snapshots → a ∈ log

theorem follows_start (catalog : Option Catalog) (state : State.Store) :
    (start catalog state).Follows [] where
  active := rfl
  previous := rfl
  counted := rfl
  numbered := by simp
  keyed := by simp [start, Session.start, Fields.get?]
  held := by simp [start]

theorem keyed_of_grows {s s' : Session} (hs : s.Grows s')
    (h : ∀ key d, Fields.get? s.loaded key = some d → d.id.text = key) :
    ∀ key d, Fields.get? s'.loaded key = some d → d.id.text = key := by
  rcases hs with rfl | ⟨d, rfl⟩
  · exact h
  · intro key d' hd
    rw [add, Fields.get?_insert] at hd
    split at hd
    · next hk => rw [← Option.some.inj hd, hk]
    · exact h key d' hd

theorem Follows.grow (h : g.Follows log) {s : Session} (hs : g.session.Grows s) :
    Follows { g with session := s } log := by
  have hkeyed := keyed_of_grows hs h.keyed
  rcases hs with rfl | ⟨d, rfl⟩
  · exact h
  · exact ⟨h.active, h.previous, h.counted, h.numbered, hkeyed, h.held⟩

theorem Follows.makeActive (h : g.Follows log) {a : Active}
    (ha : a.generation = g.session.generation + 1) :
    Follows { g with session := g.session.makeActive a } (log ++ [a]) where
  active := by simp [Session.makeActive]
  previous := by simp [Session.makeActive, h.active]
  counted := by simp [Session.makeActive, h.counted]
  numbered := by
    intro i b hb
    rcases Nat.lt_or_ge i log.length with hi | hi
    · rw [List.getElem?_append_left hi] at hb
      exact h.numbered i b hb
    · rw [List.getElem?_append_right hi, List.getElem?_singleton] at hb
      split at hb
      · cases hb
        rw [ha, h.counted]
        omega
      · cases hb
  keyed := h.keyed
  held := fun b hb => List.mem_append_left _ (h.held b hb)

theorem Step.follows (hstep : g.Step op g' outcome) (h : g.Follows log) :
    g'.Follows (log ++ outcome.activation?.toList) := by
  have hlog (hnone : outcome.activation? = none) : log ++ outcome.activation?.toList = log := by
    rw [hnone, Option.toList_none, List.append_nil]
  cases hstep with
  | loads _ d =>
    rw [hlog rfl]
    exact h.grow (.inr ⟨d, rfl⟩)
  | activates _ hs ha => exact (h.grow hs).makeActive ha
  | activateFails hs =>
    rw [hlog rfl]
    exact h.grow hs
  | takes =>
    rw [hlog rfl]
    refine ⟨h.active, h.previous, h.counted, h.numbered, h.keyed, fun a ha => ?_⟩
    rcases List.mem_append.1 ha with ha | ha
    · exact h.held a ha
    · rw [List.mem_singleton, h.active] at ha
      exact List.mem_of_getLast? ha.symm
  | loadFails | setsPhase | invokes =>
    rw [hlog rfl]
    exact ⟨h.active, h.previous, h.counted, h.numbered, h.keyed, h.held⟩

def activations (outcomes : List Outcome) : List Active := outcomes.filterMap Outcome.activation?

theorem Follows.run (evaluate : Evaluator) (h : g.Follows log) (ops : List Operation) :
    (g.run evaluate ops).1.Follows (log ++ activations (g.run evaluate ops).2) := by
  induction ops generalizing g log with
  | nil => simpa [Game.run, activations] using h
  | cons op ops ih =>
    have hstep := ih ((step_answer evaluate g op).follows h)
    have hlog : activations (g.run evaluate (op :: ops)).2 =
        (g.answer evaluate op).2.activation?.toList ++
          activations ((g.answer evaluate op).1.run evaluate ops).2 := by
      rw [Game.run, activations, List.filterMap_cons]
      cases (g.answer evaluate op).2.activation? <;> rfl
    rw [hlog, ← List.append_assoc]
    exact hstep

theorem snapshots_kept_run (evaluate : Evaluator) (g : Game) (ops : List Operation) :
    g.snapshots <+: (g.run evaluate ops).1.snapshots := by
  induction ops generalizing g with
  | nil => exact List.prefix_refl _
  | cons op ops ih => exact (step_answer evaluate g op).snapshots_kept.trans (ih _)

theorem run_append (evaluate : Evaluator) (g : Game) (ops more : List Operation) :
    g.run evaluate (ops ++ more) = (((g.run evaluate ops).1.run evaluate more).1,
      (g.run evaluate ops).2 ++ ((g.run evaluate ops).1.run evaluate more).2) := by
  induction ops generalizing g with
  | nil => rfl
  | cons op ops ih => simp only [List.cons_append, Game.run, ih]

theorem Follows.active_generation (h : g.Follows log) :
    g.session.active.map (·.generation) = if log = [] then none else some log.length := by
  rw [h.active]
  by_cases hl : log = []
  · simp [hl]
  · have hpos := List.length_pos_iff.2 hl
    rw [if_neg hl, List.getLast?_eq_getElem?, List.getElem?_eq_getElem (by omega), Option.map_some,
      h.numbered (log.length - 1) _ (List.getElem?_eq_getElem (by omega))]
    congr 1
    omega

theorem Follows.previous_generation (h : g.Follows log) :
    g.session.previous.map (·.generation) =
      if log.length ≤ 1 then none else some (log.length - 1) := by
  rw [h.previous]
  by_cases hl : log.length ≤ 1
  · have hd : log.dropLast = [] := List.length_eq_zero_iff.1 (by rw [List.length_dropLast]; omega)
    rw [if_pos hl, hd]
    rfl
  · rw [if_neg hl, List.getLast?_eq_getElem?, List.length_dropLast, List.getElem?_dropLast,
      if_pos (by omega), List.getElem?_eq_getElem (by omega), Option.map_some,
      h.numbered (log.length - 1 - 1) _ (List.getElem?_eq_getElem (by omega))]
    congr 1
    omega

theorem Follows.held_at (h : g.Follows log) {a : Active} (ha : some a ∈ g.snapshots) :
    log[a.generation - 1]? = some a := by
  obtain ⟨i, hi⟩ := List.getElem?_of_mem (h.held a ha)
  rw [h.numbered i a hi, Nat.add_sub_cancel, hi]

/-- After any operations the document that answers has the number of activations as its generation,
the one before it has the generation before and is what answered when the last activation came, and
documents are loaded under their own ids. A further operation that fails, and one that loads a
document, leaves both as they are; the game's state is changed by calls only; and a snapshot stays
what it is, the document as it was made active under its number. -/
theorem session_history (evaluate : Evaluator) (catalog : Option Catalog) (state : State.Store)
    (ops : List Operation) :
    let g := ((start catalog state).run evaluate ops).1
    let log := activations ((start catalog state).run evaluate ops).2
    (g.session.active.map (·.generation) = if log = [] then none else some log.length) ∧
    (g.session.previous.map (·.generation) =
      if log.length ≤ 1 then none else some (log.length - 1)) ∧
    (∀ before op after a, ops = before ++ op :: after →
      let now := ((start catalog state).run evaluate before).1
      (now.answer evaluate op).2 = .activated (.ok a) →
      activations ((now.answer evaluate op).1.run evaluate after).2 = [] →
      g.session.active = some a ∧ g.session.previous = now.session.active) ∧
    (∀ key d, Fields.get? g.session.loaded key = some d → d.id.text = key) ∧
    (∀ op, let next := g.answer evaluate op
      (next.2.fails → next.1.session.active = g.session.active ∧
        next.1.session.previous = g.session.previous ∧ next.1.session.phase = g.session.phase ∧
        next.1.session.generation = g.session.generation) ∧
      (op.loads → next.1.session.active = g.session.active ∧
        next.1.session.previous = g.session.previous) ∧
      (¬ op.invokes → next.1.state = g.state)) ∧
    (∀ more, g.snapshots <+: (g.run evaluate more).1.snapshots) ∧
    ∀ a, some a ∈ g.snapshots → log[a.generation - 1]? = some a := by
  intro g log
  have h : g.Follows log := by simpa using (follows_start catalog state).run evaluate ops
  refine ⟨h.active_generation, h.previous_generation, ?_, h.keyed, fun op => ?_,
    fun more => snapshots_kept_run evaluate g more, fun a => h.held_at⟩
  · intro before op after a hops now ha hquiet
    -- the history is cut at the last activation, and what comes later adds none
    have hnow : now.Follows (activations ((start catalog state).run evaluate before).2) := by
      simpa using (follows_start catalog state).run evaluate before
    have hstep := (step_answer evaluate now op).follows hnow
    rw [ha] at hstep
    have hlater := hstep.run evaluate after
    rw [hquiet, List.append_nil] at hlater
    have hg : g = ((now.answer evaluate op).1.run evaluate after).1 := by
      simp only [g, hops, run_append, Game.run, now]
    rw [hg, hlater.active, hlater.previous, hnow.active]
    simp [Outcome.activation?]
  · have hstep := step_answer evaluate g op
    exact ⟨hstep.eq_of_fails, hstep.eq_of_loads, hstep.state_eq⟩

def edition (version : String) : ByteArray :=
  ("\x7b\"metadata\":\x7b\"id\":\"rules\",\"name\":\"Rules\",\"version\":" ++ version ++ "\x7d,
   \"functionsByPhase\":\x7b\"setup\":[\x7b\"id\":\"s\",\"name\":\"sleep\",\"effects\":[
   \x7b\"target\":\"gameState.day\",\"operation\":\"add\",\"value\":1\x7d]\x7d]\x7d\x7d").toUTF8

def firstDay : State.Store := ⟨[("character", .obj []), ("gameState", .obj [("day", .int 1)])]⟩

def beforeSecond : List Operation :=
  [.load (edition "1"), .setActive "rules@1", .snapshot, .invoke "sleep" [], .load (edition "2")]

def afterSecond : List Operation := [.setActive "rules@3", .load (edition "?"), .setPhase .rest]

def granting : Evaluator := fun _ _ => .ok (.bool true)

theorem session_history_editions :
    let ops := beforeSecond ++ .setActive "rules@2" :: afterSecond
    let g := ((start none firstDay).run granting ops).1
    let log := activations ((start none firstDay).run granting ops).2
    log.map (·.document.id.text) = ["rules@1", "rules@2"] ∧
      g.session.active.map (·.generation) = some 2 ∧
      g.session.previous.map (·.generation) = some 1 ∧
      g.session.previous = ((start none firstDay).run granting beforeSecond).1.session.active ∧
      ∃ a, g.snapshots = [some a] ∧ log[0]? = some a := by
  intro ops
  obtain ⟨hactive, hprevious, hlast, -, -, -, hheld⟩ :=
    session_history granting none firstDay ops
  have hlog : (activations ((start none firstDay).run granting ops).2).map (·.document.id.text) =
      ["rules@1", "rules@2"] := by decide +kernel
  have hlength : (activations ((start none firstDay).run granting ops).2).length = 2 := by
    simpa using congrArg List.length hlog
  rw [if_neg (List.ne_nil_of_length_pos (by omega)), hlength] at hactive
  rw [if_neg (by omega), hlength] at hprevious
  have hsecond : ((((start none firstDay).run granting beforeSecond).1.answer granting
      (.setActive "rules@2")).2.activation?).isSome = true := by decide +kernel
  obtain ⟨a, ha⟩ := Option.isSome_iff_exists.1 hsecond
  have hquiet : activations ((((start none firstDay).run granting beforeSecond).1.answer granting
      (.setActive "rules@2")).1.run granting afterSecond).2 = [] :=
    List.isEmpty_iff.1 (by decide +kernel)
  have hsnapshots : (((start none firstDay).run granting ops).1.snapshots.map
      (·.map (·.generation))) = [some 1] := by decide +kernel
  obtain ⟨b, hb, hgen⟩ := List.map_eq_singleton_iff.1 hsnapshots
  obtain ⟨c, rfl, hc⟩ := Option.map_eq_some_iff.1 hgen
  have hfirst := hheld c (by simp [hb])
  rw [hc] at hfirst
  exact ⟨hlog, hactive, hprevious, (hlast beforeSecond _ afterSecond a rfl
    (Outcome.activation?_eq_some.1 ha) hquiet).2, c, hb, hfirst⟩

end Game

end Rulebook.Session
