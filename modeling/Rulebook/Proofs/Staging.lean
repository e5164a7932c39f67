import Rulebook.Proofs.Except
import Rulebook.Proofs.Fields
import Rulebook.State.Store

namespace Rulebook.State

theorem apply_eq_ok {op : Operation} {value root root' : Json} {p : List String} {c : Change} :
    apply op value p root = .ok (root', c) ↔ edit op value p root = (root', .ok c) := by
  unfold apply
  obtain ⟨r, result⟩ := edit op value p root
  cases result <;> simp [Except.map]

theorem apply_eq_error {op : Operation} {value root : Json} {p : List String} {cause : PathFault} :
    apply op value p root = .error cause ↔ (edit op value p root).2 = .error cause := by
  unfold apply
  obtain ⟨r, result⟩ := edit op value p root
  cases result <;> simp [Except.map]

def Store.write (s : Store) (e : Effect) : Option (Store × Applied) :=
  match s.readRoot? e.target.root with
  | none => none
  | some v =>
    match State.apply e.operation e.value e.target.rest v with
    | .error _ => none
    | .ok (v, change) => some (s.insertRoot e.target.root v, ⟨e, change⟩)

def Store.writes (s : Store) : List Effect → Option (Store × List Applied)
  | [] => some (s, [])
  | e :: es =>
    match s.write e with
    | none => none
    | some (s, a) => (s.writes es).map fun (s, as) => (s, a :: as)

theorem Store.readRoot?_insertRoot (s : Store) (root other : String) (value : Json) :
    (s.insertRoot root value).readRoot? other =
      if other = root then some value else s.readRoot? other :=
  Fields.get?_insert root other value s.roots

theorem Store.hasRoot_iff {s : Store} {root : String} :
    s.hasRoot root = true ↔ ∃ v, s.readRoot? root = some v :=
  Fields.has_iff

theorem Store.write_eq_some {s s' : Store} {e : Effect} {a : Applied} :
    s.write e = some (s', a) ↔ ∃ v v', s.readRoot? e.target.root = some v ∧
      State.apply e.operation e.value e.target.rest v = .ok (v', a.change) ∧
      s' = s.insertRoot e.target.root v' ∧ a.effect = e := by
  obtain ⟨effect, change⟩ := a
  unfold write
  cases hv : s.readRoot? e.target.root with
  | none => simp
  | some v =>
    cases ha : State.apply e.operation e.value e.target.rest v with
    | error cause => simp [ha]
    | ok r => simp [ha, Prod.ext_iff, eq_comm, and_comm, and_assoc]

theorem Store.write_effect {s s' : Store} {e : Effect} {a : Applied}
    (h : s.write e = some (s', a)) : a.effect = e := by
  obtain ⟨_, _, _, _, _, he⟩ := write_eq_some.1 h
  exact he

theorem Store.writes_effects {s s' : Store} {es : List Effect} {as : List Applied}
    (h : s.writes es = some (s', as)) : as.map (·.effect) = es := by
  induction es generalizing s as with
  | nil =>
    cases h
    rfl
  | cons e es ih =>
    rw [writes] at h
    split at h
    · cases h
    · next s₁ a ha =>
      obtain ⟨⟨s₂, as'⟩, hs, he⟩ := Option.map_eq_some_iff.1 h
      cases he
      rw [List.map_cons, write_effect ha, ih hs]

theorem Store.write_sorted {s s' : Store} {e : Effect} {a : Applied} (hs : s.roots.Sorted)
    (h : s.write e = some (s', a)) : s'.roots.Sorted := by
  obtain ⟨_, _, _, _, rfl, _⟩ := write_eq_some.1 h
  exact Fields.sorted_insert hs _ _

theorem Store.writes_append (s : Store) (es es' : List Effect) :
    s.writes (es ++ es') = (s.writes es).bind fun r =>
      (r.1.writes es').map fun r' => (r'.1, r.2 ++ r'.2) := by
  induction es generalizing s with
  | nil => simp [writes]
  | cons e es ih =>
    rw [List.cons_append, writes, writes]
    cases s.write e with
    | none => rfl
    | some r =>
      simp only [ih]
      cases r.1.writes es with
      | none => rfl
      | some r' => simp [Function.comp_def]

theorem Store.writes_sorted {s s' : Store} {es : List Effect} {as : List Applied}
    (hs : s.roots.Sorted) (h : s.writes es = some (s', as)) : s'.roots.Sorted := by
  induction es generalizing s as with
  | nil =>
    cases h
    exact hs
  | cons e es ih =>
    rw [writes] at h
    split at h
    · cases h
    · next s₁ a ha =>
      obtain ⟨⟨s₂, as'⟩, h', he⟩ := Option.map_eq_some_iff.1 h
      cases he
      exact ih (write_sorted hs ha) h'

/-- The fault of a change as a list of effects reports it, with the change's place in the list. -/
def Fault.placed (i : Nat) (op : Operation) : Fault → Fault
  | .invalidTarget target cause => .rejected i op target cause
  | fault => fault

/-- A batch begun on `s₀` whose roots are as in `s`, which is `s₀` everywhere else. -/
structure Batch.Mirrors (b : Batch) (s₀ s : Store) : Prop where
  ordered : b.staged.Sorted
  inside : ∀ root ∈ b.roots, b.view? root = s.readRoot? root
  outside : ∀ root, root ∉ b.roots → s.readRoot? root = s₀.readRoot? root

namespace Batch

variable {b b' : Batch} {s₀ s : Store} {e : Effect} {es : List Effect} {change : Change}
  {fault : Fault}

theorem mem_roots_iff {root : String} : root ∈ b.roots ↔ ∃ v, b.view? root = some v := by
  rw [roots, b.keys]
  exact Fields.mem_names

theorem view?_eq_none_iff {root : String} : b.view? root = none ↔ root ∉ b.roots := by
  rw [mem_roots_iff, Option.eq_none_iff_forall_not_mem]
  simp

theorem guards_eq (b : Batch) : b.guards = b.roots.map fun root => (root, Guard.mk root) := by
  have hown : ∀ g ∈ b.guards, (g.1, Guard.mk g.1) = g := by
    intro g hg
    have := b.own g hg
    obtain ⟨name, ⟨root⟩⟩ := g
    cases this
    rfl
  rw [roots, Fields.names, List.map_map]
  exact ((List.map_congr_left hown).trans (List.map_id _)).symm

/-- The guards of a batch can be told from what it has staged. -/
theorem eq_of_staged (h : b.staged = b'.staged) : b = b' := by
  have hroots : b.roots = b'.roots := by rw [roots, roots, b.keys, b'.keys, h]
  have hguards : b.guards = b'.guards := by rw [guards_eq, guards_eq, hroots]
  cases b
  cases b'
  cases h
  cases hguards
  rfl

theorem view?_restage {root : String} (h : root ∈ b.roots) (value : Json) (other : String) :
    (b.restage root value).view? other = if other = root then some value else b.view? other := by
  obtain ⟨v, hv⟩ := mem_roots_iff.1 h
  rw [view?] at hv
  rw [view?, restage, Fields.get?_set, hv]
  rfl

theorem set_eq_ok {p : Path} {op : Operation} {value : Json} :
    b.set p op value = .ok (b', change) ↔ b.change p op value = (b', .ok change) := by
  unfold set
  obtain ⟨r, result⟩ := b.change p op value
  cases result <;> simp [Except.map]

/-- The three things that a change to a batch can come to. In two of them it leaves the batch as it
was. -/
theorem change_cases (b : Batch) (p : Path) (op : Operation) (value : Json) :
    (p.root ∉ b.roots ∧ b.change p op value = (b, .error (.unknownRoot p.root))) ∨
    (∃ v cause, b.view? p.root = some v ∧ apply op value p.rest v = .error cause ∧
      b.change p op value = (b, .error (.invalidTarget p.text cause))) ∨
    ∃ v v' c, b.view? p.root = some v ∧ apply op value p.rest v = .ok (v', c) ∧
      b.change p op value = (b.restage p.root v', .ok c) := by
  cases hv : b.view? p.root with
  | none => exact .inl ⟨view?_eq_none_iff.1 hv, by simp only [change, hv]⟩
  | some v =>
    cases he : edit op value p.rest v with
    | mk v' result =>
      cases result with
      | error cause =>
        have hfails : apply op value p.rest v = .error cause := apply_eq_error.2 (by rw [he])
        exact .inr (.inl ⟨v, cause, rfl, hfails, by simp only [change, hv, he]⟩)
      | ok c => exact .inr (.inr ⟨v, v', c, rfl, apply_eq_ok.2 he, by simp only [change, hv, he]⟩)

theorem set_eq_error {p : Path} {op : Operation} {value : Json} :
    b.set p op value = .error fault ↔ b.change p op value = (b, .error fault) := by
  rcases change_cases b p op value with ⟨-, h⟩ | ⟨_, _, -, -, h⟩ | ⟨_, _, _, -, -, h⟩
  · simp [set, h, Except.map]
  · simp [set, h, Except.map]
  · simp [set, h, Except.map]

theorem set_unheld (h : e.target.root ∉ b.roots) :
    b.set e.target e.operation e.value = .error (.unknownRoot e.target.root) := by
  rw [set_eq_error, change, view?_eq_none_iff.2 h]

theorem set_cases (b : Batch) (e : Effect) :
    (e.target.root ∉ b.roots ∧
      b.set e.target e.operation e.value = .error (.unknownRoot e.target.root)) ∨
    (∃ v cause, b.view? e.target.root = some v ∧
      apply e.operation e.value e.target.rest v = .error cause ∧
      b.set e.target e.operation e.value = .error (.invalidTarget e.target.text cause)) ∨
    ∃ v v' change, b.view? e.target.root = some v ∧
      apply e.operation e.value e.target.rest v = .ok (v', change) ∧
      b.set e.target e.operation e.value = .ok (b.restage e.target.root v', change) := by
  simp only [set_eq_ok, set_eq_error]
  exact change_cases b e.target e.operation e.value

theorem roots_of_set (h : b.set e.target e.operation e.value = .ok (b', change)) :
    b'.roots = b.roots := by
  rcases set_cases b e with ⟨-, hs⟩ | ⟨_, _, -, -, hs⟩ | ⟨v, v', c, hv, -, hs⟩
  · cases hs.symm.trans h
  · cases hs.symm.trans h
  · cases hs.symm.trans h
    rfl

theorem mem_roots_of_set (h : b.set e.target e.operation e.value = .ok (b', change))
    (root : String) : root ∈ b'.roots ↔ root ∈ b.roots := by
  rw [roots_of_set h]

/-- A change that the batch takes is one that the store takes. -/
theorem Mirrors.set (h : b.Mirrors s₀ s)
    (hs : b.set e.target e.operation e.value = .ok (b', change)) :
    ∃ s', s.write e = some (s', ⟨e, change⟩) ∧ b'.Mirrors s₀ s' := by
  have hroots := mem_roots_of_set hs
  rcases set_cases b e with ⟨-, he⟩ | ⟨_, _, -, -, he⟩ | ⟨v, v', c, hv, ha, he⟩
  · cases he.symm.trans hs
  · cases he.symm.trans hs
  · cases he.symm.trans hs
    have hr : e.target.root ∈ b.roots := mem_roots_iff.2 ⟨v, hv⟩
    have hsv : s.readRoot? e.target.root = some v := (h.inside _ hr).symm.trans hv
    refine ⟨s.insertRoot e.target.root v', by simp [Store.write, hsv, ha],
      Fields.sorted_set h.ordered, ?_, ?_⟩
    · intro root hm
      rw [view?_restage hr, Store.readRoot?_insertRoot]
      by_cases hne : root = e.target.root
      · simp [hne]
      · rw [if_neg hne, if_neg hne]
        exact h.inside root ((hroots root).1 hm)
    · intro root hm
      have hm' := mt (hroots root).2 hm
      have hne : root ≠ e.target.root := fun he => hm' (he ▸ hr)
      rw [Store.readRoot?_insertRoot, if_neg hne]
      exact h.outside root hm'

theorem Mirrors.set_error (h : b.Mirrors s₀ s) (hr : e.target.root ∈ b.roots)
    (hs : b.set e.target e.operation e.value = .error fault) :
    ∃ v cause, s.readRoot? e.target.root = some v ∧
      apply e.operation e.value e.target.rest v = .error cause ∧
      fault = .invalidTarget e.target.text cause := by
  rcases set_cases b e with ⟨hn, -⟩ | ⟨v, cause, hv, ha, he⟩ | ⟨_, _, _, -, -, he⟩
  · exact absurd hr hn
  · cases he.symm.trans hs
    exact ⟨v, cause, (h.inside _ hr).symm.trans hv, ha, rfl⟩
  · cases he.symm.trans hs

theorem stage_cons_ok (h : b.set e.target e.operation e.value = .ok (b', change)) (i : Nat)
    (es : List Effect) :
    b.stage i (e :: es) =
      ((b'.stage (i + 1) es).1, (b'.stage (i + 1) es).2.map (⟨e, change⟩ :: ·)) := by
  rw [stage, set_eq_ok.1 h]

theorem stage_cons_error (h : b.set e.target e.operation e.value = .error fault) (i : Nat)
    (es : List Effect) : b.stage i (e :: es) = (b, .error (fault.placed i e.operation)) := by
  rw [stage, set_eq_error.1 h]
  cases fault <;> rfl

/-- Staging goes through, or it stops at the first change that fails and keeps those before. -/
theorem stage_split (b : Batch) (i : Nat) (es : List Effect) :
    (∃ b' as, b.stage i es = (b', .ok as)) ∨
    ∃ done e rest b' as fault, es = done ++ e :: rest ∧ b.stage i done = (b', .ok as) ∧
      b'.set e.target e.operation e.value = .error fault ∧
      b.stage i es = (b', .error (fault.placed (i + done.length) e.operation)) := by
  induction es generalizing b i with
  | nil => exact .inl ⟨b, [], rfl⟩
  | cons e es ih =>
    cases hs : b.set e.target e.operation e.value with
    | error fault =>
      exact .inr ⟨[], e, es, b, [], fault, rfl, rfl, hs, stage_cons_error hs i es⟩
    | ok r =>
      obtain ⟨b₁, change⟩ := r
      rw [stage_cons_ok hs]
      rcases ih b₁ (i + 1) with
        ⟨b', as, h⟩ | ⟨done, e', rest, b', as, fault, rfl, hd, hf, h⟩
      · exact .inl ⟨b', ⟨e, change⟩ :: as, by rw [h]; rfl⟩
      · refine .inr ⟨e :: done, e', rest, b', ⟨e, change⟩ :: as, fault, rfl, ?_, hf, ?_⟩
        · rw [stage_cons_ok hs, hd]
          rfl
        · rw [h, List.length_cons, Nat.add_right_comm, Nat.add_assoc]
          rfl

theorem Mirrors.stage {as : List Applied} (h : b.Mirrors s₀ s) {i : Nat}
    (hs : b.stage i es = (b', .ok as)) :
    ∃ s', s.writes es = some (s', as) ∧ b'.Mirrors s₀ s' := by
  induction es generalizing b s i as with
  | nil =>
    cases hs
    exact ⟨s, rfl, h⟩
  | cons e es ih =>
    cases he : b.set e.target e.operation e.value with
    | error fault =>
      rw [stage_cons_error he] at hs
      cases hs
    | ok r =>
      obtain ⟨b₁, change⟩ := r
      rw [stage_cons_ok he, Prod.mk.injEq, map_eq_ok] at hs
      obtain ⟨hb, as', ha, rfl⟩ := hs
      obtain ⟨s₁, hw, hm⟩ := h.set he
      obtain ⟨s', hws, hm'⟩ := ih hm (Prod.ext hb ha)
      exact ⟨s', by rw [Store.writes, hw]; simp [hws], hm'⟩

theorem mem_roots_of_stage {i : Nat} {result : Except Fault (List Applied)}
    (h : b.stage i es = (b', result)) (root : String) : root ∈ b'.roots ↔ root ∈ b.roots := by
  induction es generalizing b i result with
  | nil =>
    cases h
    rfl
  | cons e es ih =>
    cases hs : b.set e.target e.operation e.value with
    | error fault =>
      rw [stage_cons_error hs] at h
      cases h
      rfl
    | ok r =>
      rw [stage_cons_ok hs, Prod.mk.injEq] at h
      exact (ih (Prod.ext h.1 rfl)).trans (mem_roots_of_set hs root)

/-- A whole list of effects, staged and applied. -/
theorem stage_cases (h : b.Mirrors s₀ s) (i : Nat) (es : List Effect)
    (hr : ∀ e ∈ es, e.target.root ∈ b.roots) :
    (∃ b' s' as, b.stage i es = (b', .ok as) ∧ s.writes es = some (s', as) ∧ b'.Mirrors s₀ s') ∨
    (∃ b' fault, b.stage i es = (b', .error fault) ∧ s.writes es = none) := by
  rcases stage_split b i es with ⟨b', as, hs⟩ | ⟨done, e, rest, b', as, fault, rfl, hd, hf, hs⟩
  · obtain ⟨s', hw, hm⟩ := h.stage hs
    exact .inl ⟨b', s', as, hs, hw, hm⟩
  · obtain ⟨s', hw, hm⟩ := h.stage hd
    have hin : e.target.root ∈ b'.roots := (mem_roots_of_stage hd _).2 (hr e (by simp))
    obtain ⟨v, cause, hv, ha, -⟩ := hm.set_error hin hf
    have hn : s'.write e = none := by simp [Store.write, hv, ha]
    exact .inr ⟨b', _, hs, by simp [Store.writes_append, hw, Store.writes, hn]⟩

theorem commit_roots (b : Batch) (now : Store) :
    (b.commit now).roots = Fields.readInto now.roots b.view? b.roots := by
  simp only [commit]
  rw [guards_eq, List.foldl_map, Fields.readInto]
  congr 1
  funext roots name
  cases b.view? name <;> rfl

theorem readRoot?_commit_or (b : Batch) (now : Store) (root : String) :
    (b.commit now).readRoot? root =
      if root ∈ b.roots then b.view? root else now.readRoot? root := by
  rw [Store.readRoot?, commit_roots, Fields.get?_readInto]
  split
  · next hm =>
    obtain ⟨v, hv⟩ := mem_roots_iff.1 hm
    rw [hv, Option.some_or]
  · rfl

theorem readRoot?_commit (h : b.Mirrors s₀ s) (root : String) :
    (b.commit s₀).readRoot? root = s.readRoot? root := by
  rw [readRoot?_commit_or]
  split
  · next hm => exact h.inside root hm
  · next hm => exact (h.outside root hm).symm

theorem commit_eq (h : b.Mirrors s₀ s) (h₀ : s₀.roots.Sorted)
    (hs : s.roots.Sorted) : b.commit s₀ = s := by
  have hsorted : (b.commit s₀).roots.Sorted := by
    rw [commit_roots]
    exact Fields.sorted_readInto h₀
  have he : (b.commit s₀).roots = s.roots := hsorted.ext hs (readRoot?_commit h)
  cases s
  exact congrArg Store.mk he

end Batch

theorem get?_filterMap_copies {wanted : List String} (s : Store) (root : String) :
    Fields.get? (wanted.filterMap fun r => (s.readRoot? r).map (r, ·)) root =
      if root ∈ wanted then s.readRoot? root else none := by
  induction wanted with
  | nil => simp [Fields.get?]
  | cons r wanted ih =>
    cases hv : s.readRoot? r with
    | none =>
      rw [List.filterMap_cons_none (by simp [hv]), ih]
      by_cases h : root = r
      · subst h
        simp [hv]
      · simp [h]
    | some v =>
      rw [List.filterMap_cons_some (b := (r, v)) (by simp [hv]), Fields.get?_cons, ih]
      by_cases h : root = r
      · subst h
        simp [hv]
      · simp [h]

theorem sorted_filterMap_copies {wanted : List String} (s : Store) (h : wanted.Pairwise (· < ·)) :
    Fields.Sorted (wanted.filterMap fun r => (s.readRoot? r).map (r, ·)) := by
  rw [Fields.Sorted, List.pairwise_filterMap]
  refine h.imp fun {a b} hab f hf g hg => ?_
  obtain ⟨_, _, rfl⟩ := Option.map_eq_some_iff.1 hf
  obtain ⟨_, _, rfl⟩ := Option.map_eq_some_iff.1 hg
  exact hab

namespace Store

/-- A batch begins if the store has every root, and then it is a copy. -/
theorem begin_mirrors {s : Store} {roots : List String} {b : Batch} (h : s.begin roots = .ok b) :
    b.Mirrors s s ∧ ∀ root, root ∈ b.roots ↔ root ∈ roots := by
  unfold begin at h
  simp only at h
  split at h
  · cases h
  · next hf =>
    cases h
    -- the sorted names of the roots are the keys of what is held
    have hv (root : String) : (s.hold (sortedNames roots)).view? root =
        if root ∈ roots then s.readRoot? root else none := by
      simp only [hold, Batch.view?, get?_filterMap_copies, mem_sortedNames]
    have hall : ∀ root ∈ roots, ∃ v, s.readRoot? root = some v := by
      intro root hm
      have := List.find?_eq_none.1 hf root (mem_sortedNames.2 hm)
      exact Fields.has_iff.1 (by simpa [hasRoot] using this)
    refine ⟨⟨sorted_filterMap_copies s (sortedNames_pairwise roots), ?_, fun _ _ => rfl⟩, ?_⟩
    · intro root hm
      obtain ⟨v, he⟩ := Batch.mem_roots_iff.1 hm
      rw [hv] at he
      split at he
      · next hr => rw [hv, if_pos hr]
      · cases he
    · intro root
      rw [Batch.mem_roots_iff, hv]
      by_cases hm : root ∈ roots
      · simpa [hm] using hall root hm
      · simp [hm]

theorem begin_ok {s : Store} {roots : List String} (h : ∀ root ∈ roots, s.hasRoot root = true) :
    ∃ b, s.begin roots = .ok b := by
  have hf : (sortedNames roots).find? (fun r => !s.hasRoot r) = none := by
    rw [List.find?_eq_none]
    intro root hm
    simp [h root (mem_sortedNames.1 hm)]
  exact ⟨s.hold (sortedNames roots), by simp only [begin, hf]⟩

end Store

theorem mem_rootsOf {e : Effect} {es : List Effect} (h : e ∈ es) : e.target.root ∈ rootsOf es :=
  mem_sortedNames.2 (List.mem_map_of_mem h)

end Rulebook.State
