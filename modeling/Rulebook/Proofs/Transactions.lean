import Rulebook.Proofs.Staging

namespace Rulebook.State

inductive Request where
  | change (e : Effect)
  | get (p : Path)
  | view (root : String)
  | stage (es : List Effect)

inductive Reply where
  | changed (result : Except Fault Change)
  | value (v : Option Json)
  | staged (result : Except Fault (List Applied))

def Batch.answer (b : Batch) : Request → Batch × Reply
  | .change e =>
    let (b, result) := b.change e.target e.operation e.value
    (b, .changed result)
  | .get p => (b, .value (b.get? p))
  | .view root => (b, .value (b.view? root))
  | .stage es => ((b.stage 0 es).1, .staged (b.stage 0 es).2)

def Batch.serve (b : Batch) : List Request → Batch × List Reply
  | [] => (b, [])
  | r :: rs =>
    let (b, reply) := b.answer r
    let (b, replies) := b.serve rs
    (b, reply :: replies)

inductive Ending where
  | commit | rollback | drop

def Batch.close (b : Batch) (s : Store) : Ending → Store
  | .commit => b.commit s
  | .rollback => b.rollback s
  | .drop => s

/-- The changes that a reply tells of as made. A list of effects that stops at one of them has made
those before. -/
def Request.made : Request → Reply → List Effect
  | .change e, .changed (.ok _) => [e]
  | .stage es, .staged (.ok _) => es
  | .stage es, .staged (.error (.rejected i _ _ _)) => es.take i
  | .stage es, .staged (.error (.unknownRoot root)) => es.takeWhile fun e => e.target.root ≠ root
  | _, _ => []

def journal (requests : List Request) (replies : List Reply) : List Effect :=
  (List.zipWith Request.made requests replies).flatten

variable {b : Batch} {s₀ s : Store} {e : Effect} {es rest : List Effect} {fault : Fault}

namespace Batch

theorem root_mem_of_stage {b' : Batch} {i : Nat} {as : List Applied}
    (h : b.stage i es = (b', .ok as)) : ∀ e ∈ es, e.target.root ∈ b.roots := by
  induction es generalizing b i as with
  | nil => simp
  | cons e es ih =>
    cases he : b.set e.target e.operation e.value with
    | error fault =>
      rw [stage_cons_error he] at h
      cases h
    | ok r =>
      rw [stage_cons_ok he, Prod.mk.injEq, map_eq_ok] at h
      obtain ⟨hb, as', ha, -⟩ := h
      have hroots := mem_roots_of_set he
      refine List.forall_mem_cons.2 ⟨?_, fun e' he' => ?_⟩
      · by_contra hn
        cases (set_unheld hn).symm.trans he
      · exact (hroots _).1 (ih (Prod.ext hb ha) e' he')

theorem stage_append {b' : Batch} {i : Nat} {as : List Applied}
    (h : b.stage i es = (b', .ok as)) (rest : List Effect) :
    b.stage i (es ++ rest) = ((b'.stage (i + es.length) rest).1,
      (b'.stage (i + es.length) rest).2.map (as ++ ·)) := by
  induction es generalizing b i as with
  | nil =>
    cases h
    have hmap : (b'.stage i rest).2.map (([] : List Applied) ++ ·) = (b'.stage i rest).2 := by
      cases (b'.stage i rest).2 <;> rfl
    exact Prod.ext rfl hmap.symm
  | cons e es ih =>
    cases he : b.set e.target e.operation e.value with
    | error fault =>
      rw [stage_cons_error he] at h
      cases h
    | ok r =>
      rw [stage_cons_ok he, Prod.mk.injEq, map_eq_ok] at h
      obtain ⟨hb, as', ha, rfl⟩ := h
      rw [List.cons_append, stage_cons_ok he, ih (Prod.ext hb ha), List.length_cons,
        Nat.add_right_comm, Nat.add_assoc]
      cases (b'.stage (i + (es.length + 1)) rest).2 <;> rfl

theorem stage_next {done : List Effect} {b' b'' : Batch} {as : List Applied} {change : Change}
    (hd : b.stage 0 done = (b', .ok as))
    (h : b'.set e.target e.operation e.value = .ok (b'', change)) :
    b.stage 0 (done ++ [e]) = (b'', .ok (as ++ [⟨e, change⟩])) := by
  rw [stage_append hd, stage_cons_ok h]
  rfl

theorem stage_stop {done : List Effect} {b' : Batch} {as : List Applied}
    (hd : b.stage 0 done = (b', .ok as))
    (h : b'.set e.target e.operation e.value = .error fault) (rest : List Effect) :
    b.stage 0 (done ++ e :: rest) =
      (b', .error (fault.placed done.length e.operation)) := by
  rw [stage_append hd, stage_cons_error h, Nat.zero_add]
  rfl

/-- A list of effects that stops has made what its reply says. -/
theorem made_of_stage_error {done : List Effect} {b' : Batch} {as : List Applied}
    (hd : b.stage 0 done = (b', .ok as))
    (hf : b'.set e.target e.operation e.value = .error fault) :
    (Request.stage (done ++ e :: rest)).made
      (.staged (.error (fault.placed done.length e.operation))) = done := by
  rcases set_cases b' e with ⟨hn, hs⟩ | ⟨_, _, -, -, hs⟩ | ⟨_, _, _, -, -, hs⟩
  · cases hs.symm.trans hf
    have hne : ∀ e' ∈ done, e'.target.root ≠ e.target.root := fun e' he' heq => by
      rw [mem_roots_of_stage hd, ← heq] at hn
      exact hn (root_mem_of_stage hd e' he')
    simp only [Fault.placed, Request.made]
    rw [List.takeWhile_append_of_pos (by simpa using hne)]
    simp
  · cases hs.symm.trans hf
    simp [Fault.placed, Request.made]
  · cases hs.symm.trans hf

/-- What a request does to a batch, the changes that its reply tells of do to the store. -/
theorem Mirrors.answer (h : b.Mirrors s₀ s) (r : Request) :
    ∃ s' as, s.writes (r.made (b.answer r).2) = some (s', as) ∧ (b.answer r).1.Mirrors s₀ s' := by
  cases r with
  | get p => exact ⟨s, [], rfl, h⟩
  | view root => exact ⟨s, [], rfl, h⟩
  | change e =>
    cases hs : b.set e.target e.operation e.value with
    | error fault =>
      simp only [Batch.answer, set_eq_error.1 hs]
      exact ⟨s, [], rfl, h⟩
    | ok r =>
      obtain ⟨s', hw, hm⟩ := h.set hs
      simp only [Batch.answer, set_eq_ok.1 hs]
      exact ⟨s', [⟨e, r.2⟩], by simp [Request.made, Store.writes, hw], hm⟩
  | stage es =>
    rcases stage_split b 0 es with ⟨b', as, hs⟩ | ⟨done, e, rest, b', as, fault, rfl, hd, hf, hs⟩
    · obtain ⟨s', hw, hm⟩ := h.stage hs
      simp only [Batch.answer, hs]
      exact ⟨s', as, hw, hm⟩
    · obtain ⟨s', hw, hm⟩ := h.stage hd
      rw [Nat.zero_add] at hs
      simp only [Batch.answer, hs, made_of_stage_error hd hf]
      exact ⟨s', as, hw, hm⟩

/-- The same over a run of requests. -/
theorem Mirrors.serve (h : b.Mirrors s₀ s) (rs : List Request) :
    ∃ s' as, s.writes (journal rs (b.serve rs).2) = some (s', as) ∧
      (b.serve rs).1.Mirrors s₀ s' := by
  induction rs generalizing b s with
  | nil => exact ⟨s, [], rfl, h⟩
  | cons r rs ih =>
    obtain ⟨s₁, as, hw, hm⟩ := h.answer r
    obtain ⟨s₂, as', hw', hm'⟩ := ih hm
    refine ⟨s₂, as ++ as', ?_, hm'⟩
    have hj : journal (r :: rs) (b.serve (r :: rs)).2 =
        r.made (b.answer r).2 ++ journal rs ((b.answer r).1.serve rs).2 := rfl
    rw [hj, Store.writes_append, hw, Option.bind_some, hw']
    rfl

theorem mem_roots_of_answer (b : Batch) (r : Request) (root : String) :
    root ∈ (b.answer r).1.roots ↔ root ∈ b.roots := by
  cases r with
  | get p => rfl
  | view root => rfl
  | change e =>
    cases hs : b.set e.target e.operation e.value with
    | error fault => simp only [Batch.answer, set_eq_error.1 hs]
    | ok r =>
      simp only [Batch.answer, set_eq_ok.1 hs]
      exact mem_roots_of_set hs root
  | stage es => exact mem_roots_of_stage rfl root

theorem mem_roots_of_serve (b : Batch) (rs : List Request) (root : String) :
    root ∈ (b.serve rs).1.roots ↔ root ∈ b.roots := by
  induction rs generalizing b with
  | nil => rfl
  | cons r rs ih => exact (ih (b.answer r).1).trans (mem_roots_of_answer b r root)

/-- The batch shows these roots as the store has them, and no others. -/
structure Shows (b : Batch) (roots : List String) (s : Store) : Prop where
  view : ∀ root, b.view? root = if root ∈ roots then s.readRoot? root else none
  get : ∀ p, b.get? p = if p.root ∈ roots then s.get? p else none

theorem Mirrors.shows {roots : List String} (h : b.Mirrors s₀ s)
    (hroots : ∀ root, root ∈ b.roots ↔ root ∈ roots) : b.Shows roots s := by
  have hview (root : String) : b.view? root = if root ∈ roots then s.readRoot? root else none := by
    split
    · next hm => exact h.inside root ((hroots root).2 hm)
    · next hm => exact view?_eq_none_iff.2 (mt (hroots root).1 hm)
  refine ⟨hview, fun p => ?_⟩
  rw [get?, hview]
  split <;> rfl

theorem answer_unheld (h : e.target.root ∉ b.roots) :
    b.answer (.change e) = (b, .changed (.error (.unknownRoot e.target.root))) := by
  simp only [answer, set_eq_error.1 (set_unheld h)]

theorem answer_held {v : Json} (h : b.view? e.target.root = some v) :
    (b.answer (.change e)).2 = .changed
      (match apply e.operation e.value e.target.rest v with
        | .ok (_, change) => .ok change
        | .error cause => .error (.invalidTarget e.target.text cause)) := by
  rcases change_cases b e.target e.operation e.value with
    ⟨hn, -⟩ | ⟨v', cause, hv, ha, hs⟩ | ⟨v', w, c, hv, ha, hs⟩
  · exact absurd (mem_roots_iff.2 ⟨v, h⟩) hn
  · cases h.symm.trans hv
    simp only [answer, hs, ha]
  · cases h.symm.trans hv
    simp only [answer, hs, ha]

/-- Effects go on until one of them names a root that the batch does not hold. -/
theorem answer_stage_unheld {done : List Effect} {b' : Batch} {as : List Applied}
    (hd : b.stage 0 done = (b', .ok as)) (h : e.target.root ∉ b.roots) (rest : List Effect) :
    b.answer (.stage (done ++ e :: rest)) =
      (b', .staged (.error (.unknownRoot e.target.root))) := by
  have hb' : e.target.root ∉ b'.roots := mt (mem_roots_of_stage hd _).1 h
  simp only [answer, stage_stop hd (set_unheld hb'), Fault.placed]

end Batch

/-- A batch on roots of the store shows them as they were, with the changes that it has told of as
made. A change that fails has no effect, and one to a root that the batch does not hold is refused,
whatever the store has. In the end its roots are written as they are shown, or nothing is. -/
theorem batch_shows_made (s : Store) (roots : List String)
    (hroots : ∀ root ∈ roots, s.hasRoot root = true) :
    ∃ b, s.begin roots = .ok b ∧ ∀ requests b' replies, b.serve requests = (b', replies) →
      (∃ final as, s.writes (journal requests replies) = some (final, as) ∧
        b'.Shows roots final) ∧
      (∀ e v, b'.view? e.target.root = some v →
        (b'.answer (.change e)).2 = .changed
          (match apply e.operation e.value e.target.rest v with
            | .ok (_, change) => .ok change
            | .error cause => .error (.invalidTarget e.target.text cause))) ∧
      (∀ done b'' as e, b'.stage 0 done = (b'', .ok as) →
        (∀ next change, b''.set e.target e.operation e.value = .ok (next, change) →
          b'.stage 0 (done ++ [e]) = (next, .ok (as ++ [⟨e, change⟩]))) ∧
        ∀ fault rest, b''.set e.target e.operation e.value = .error fault →
          b'.stage 0 (done ++ e :: rest) =
            (b'', .error (fault.placed done.length e.operation))) ∧
      (∀ e, e.target.root ∉ roots →
        b'.answer (.change e) = (b', .changed (.error (.unknownRoot e.target.root))) ∧
        ∀ done rest b'' as, b'.stage 0 done = (b'', .ok as) →
          b'.answer (.stage (done ++ e :: rest)) =
            (b'', .staged (.error (.unknownRoot e.target.root)))) ∧
      (∀ now root, (b'.close now .commit).readRoot? root =
        if root ∈ roots then b'.view? root else now.readRoot? root) ∧
      b'.close s .rollback = s ∧ b'.close s .drop = s ∧
      ∀ ending root, (b'.close s ending).hasRoot root = s.hasRoot root := by
  obtain ⟨b, hb⟩ := Store.begin_ok hroots
  obtain ⟨hm, hheld⟩ := Store.begin_mirrors hb
  refine ⟨b, hb, fun requests b' replies hserve => ?_⟩
  obtain ⟨final, as, hw, hm'⟩ := hm.serve requests
  have hheld' (root : String) : root ∈ b'.roots ↔ root ∈ roots := by
    have := Batch.mem_roots_of_serve b requests root
    rw [hserve] at this
    exact this.trans (hheld root)
  simp only [hserve] at hw hm'
  have hcommit (now : Store) (root : String) : (b'.close now .commit).readRoot? root =
      if root ∈ roots then b'.view? root else now.readRoot? root := by
    rw [Batch.close, Batch.readRoot?_commit_or]
    exact if_congr (hheld' root) rfl rfl
  refine ⟨⟨final, as, hw, hm'.shows hheld'⟩, fun e v => Batch.answer_held,
    fun done b'' as e hd => ⟨fun next change => Batch.stage_next hd, fun fault rest h =>
      Batch.stage_stop hd h rest⟩, fun e he => ?_, hcommit, rfl, rfl, fun ending root => ?_⟩
  · rw [← hheld'] at he
    exact ⟨Batch.answer_unheld he, fun done rest b'' as hd => Batch.answer_stage_unheld hd he rest⟩
  · cases ending with
    | commit =>
      rw [Bool.eq_iff_iff, Store.hasRoot_iff, Store.hasRoot_iff, hcommit]
      split
      · next hr =>
        exact iff_of_true (Batch.mem_roots_iff.1 ((hheld' root).2 hr))
          (Store.hasRoot_iff.1 (hroots root hr))
      · rfl
    | rollback => rfl
    | drop => rfl

def heroAtTurnOne : Store :=
  ⟨[("character", .obj [("hp", .int 10)]), ("gameState", .obj [("turn", .int 1)])]⟩

def setHp (n : Int) : Effect := ⟨⟨"character", ["hp"]⟩, .set, .int n⟩

def wounds : List Request :=
  [.change ⟨⟨"character", ["mp"]⟩, .remove, .null⟩,
    .stage [setHp 7, ⟨⟨"gameState", ["turn"]⟩, .set, .int 2⟩, setHp 8]]

theorem batch_shows_made_wounds :
    (∀ root ∈ ["character"], heroAtTurnOne.hasRoot root = true) ∧
      heroAtTurnOne.hasRoot "gameState" = true ∧
      ∃ b, heroAtTurnOne.begin ["character"] = .ok b ∧
        journal wounds (b.serve wounds).2 = [setHp 7] ∧
        (∃ final as, heroAtTurnOne.writes [setHp 7] = some (final, as) ∧
          (b.serve wounds).1.Shows ["character"] final) ∧
        (b.serve wounds).1.get? ⟨"character", ["hp"]⟩ = some (.int 7) ∧
        ((b.serve wounds).1.close heroAtTurnOne .commit).get? ⟨"character", ["hp"]⟩ =
          some (.int 7) ∧
        (b.serve wounds).1.close heroAtTurnOne .rollback = heroAtTurnOne := by
  have hroots : ∀ root ∈ ["character"], heroAtTurnOne.hasRoot root = true := by decide
  obtain ⟨b, hb, h⟩ := batch_shows_made heroAtTurnOne ["character"] hroots
  have hj : journal wounds (b.serve wounds).2 = [setHp 7] := by
    have hbegin : heroAtTurnOne.begin ["character"] = .ok (heroAtTurnOne.hold ["character"]) := by
      cbv
    cases hb.symm.trans hbegin
    cbv
  obtain ⟨hshows, -, -, -, hcommit, hrollback, -⟩ :=
    h wounds (b.serve wounds).1 (b.serve wounds).2 rfl
  rw [hj] at hshows
  obtain ⟨final, as, hwrites, hshow⟩ := hshows
  have hread : final.get? ⟨"character", ["hp"]⟩ = some (.int 7) := by
    have hwritten : heroAtTurnOne.writes [setHp 7] = some
        (⟨[("character", .obj [("hp", .int 7)]), ("gameState", .obj [("turn", .int 1)])]⟩,
          [⟨setHp 7, ⟨.int 10, .int 7⟩⟩]) := by
      cbv
    cases hwrites.symm.trans hwritten
    rfl
  have hstaged := hshow.get ⟨"character", ["hp"]⟩
  rw [if_pos (List.mem_singleton_self _), hread] at hstaged
  refine ⟨hroots, by decide, b, hb, hj, ⟨final, as, hwrites, hshow⟩, hstaged, ?_, hrollback⟩
  rw [Store.get?, hcommit, if_pos (List.mem_singleton_self _)]
  exact hstaged

end Rulebook.State
