import Mathlib
import Rulebook.Script.Heap

namespace Rulebook.Script.Heap

def partsOf (t : Table) : List Ref :=
  t.items.toList.map .value ++
    (t.nodes.toList.filter (!·.2.isNil)).flatMap fun m => [.value m.1.value, .value m.2]

def parts (h : Heap) : Ref → List Ref
  | .cell n => [.value (h.cell n)]
  | .value (.table r) => partsOf (h.table r)
  | .value (.closure r) =>
    match h.functions[r]? with
    | some (.script _ env) => env.map .cell
    | _ => []
  | .value _ => []

inductive Reach (h : Heap) (roots : List Ref) : Ref → Prop
  | root {x : Ref} (hx : x ∈ roots) : Reach h roots x
  | part {x y : Ref} (hx : Reach h roots x) (hy : y ∈ h.parts x) : Reach h roots y

/-- Whether something is marked. What has no mark of its own counts as marked. -/
def Marks.has (m : Marks) : Ref → Bool
  | .cell n => m.cells.getD n true
  | .value (.table r) => m.tables.getD r true
  | .value (.closure r) => m.functions.getD r true
  | .value _ => true

def Marks.add (m : Marks) (size : Nat) : Ref → Marks
  | .cell n => { m with cells := m.cells.setIfInBounds n true, size := size }
  | .value (.table r) => { m with tables := m.tables.setIfInBounds r true, size := size }
  | .value (.closure r) => { m with functions := m.functions.setIfInBounds r true, size := size }
  | .value _ => { m with size := size }

structure Marks.Fits (m : Marks) (h : Heap) : Prop where
  tables : m.tables.size = h.tables.size
  cells : m.cells.size = h.cells.size
  functions : m.functions.size = h.functions.size

def pending : List Bool → List Nat → Nat
  | b :: bs, w :: ws => (if b then 0 else w) + pending bs ws
  | _, _ => 0

def tableWeight (t : Table) : Nat := t.items.size + 2 * t.nodes.size

def functionWeight : Closure → Nat
  | .script _ env => env.length
  | .walk _ => 0

def weight (h : Heap) : Ref → Nat
  | .cell _ => 1
  | .value (.table r) => tableWeight (h.table r)
  | .value (.closure r) => (h.functions[r]?.map functionWeight).getD 0
  | .value _ => 0

def Marks.left (m : Marks) (h : Heap) : Nat :=
  pending m.tables.toList (h.tables.toList.map tableWeight) +
    pending m.cells.toList (h.cells.toList.map fun _ => 1) +
    pending m.functions.toList (h.functions.toList.map functionWeight)

section Weights

variable {bs : List Bool} {ws : List Nat} {i w : Nat}

theorem pending_set (hb : bs[i]? = some false) (hw : ws[i]? = some w) :
    pending (bs.set i true) ws + w = pending bs ws := by
  induction bs generalizing ws i with
  | nil => cases hb
  | cons b bs ih =>
    cases ws with
    | nil => cases hw
    | cons v ws =>
      cases i with
      | zero =>
        obtain rfl : b = false := by simpa using hb
        obtain rfl : v = w := by simpa using hw
        simp [pending, Nat.add_comm]
      | succ i =>
        have : pending (bs.set i true) ws + w = pending bs ws :=
          ih (by simpa using hb) (by simpa using hw)
        rw [List.set_cons_succ, pending, pending]
        omega

theorem pending_replicate (ws : List Nat) :
    pending (List.replicate ws.length false) ws = ws.sum := by
  induction ws with
  | nil => rfl
  | cons w ws ih => simp [List.replicate_succ, pending, ih]

end Weights

section Adding

variable {r n : Nat} {work : List Ref}

theorem pushValues_eq (vs : Array Value) (work : List Ref) :
    pushValues vs work = (vs.toList.map .value).reverse ++ work := by
  rw [pushValues, ← Array.foldl_toList]
  induction vs.toList generalizing work with
  | nil => rfl
  | cons v vs ih => simp [ih]

theorem foldl_members (ms : List (Key × Value)) (work : List Ref) :
    ms.foldl (fun work m =>
        if m.2.isNil then work else .value m.1.value :: .value m.2 :: work) work =
      ((ms.filter (!·.2.isNil)).reverse.flatMap fun m => [.value m.1.value, .value m.2]) ++
        work := by
  induction ms generalizing work with
  | nil => rfl
  | cons m ms ih =>
    rw [List.foldl_cons, ih]
    by_cases hv : m.2.isNil = true <;> simp [hv]

theorem foldl_cells (env : Env) (work : List Ref) :
    env.foldl (fun work n => .cell n :: work) work = (env.map .cell).reverse ++ work := by
  induction env generalizing work with
  | nil => rfl
  | cons n env ih => simp [ih]

end Adding

section Marks

variable {h : Heap} {m : Marks} {x z : Ref} {size : Nat}

theorem lt_of_getD {bs : Array Bool} {i : Nat} (hi : bs.getD i true = false) : i < bs.size := by
  by_contra hlt
  simp [hlt] at hi

theorem getD_setIfInBounds (bs : Array Bool) (i j : Nat) :
    (bs.setIfInBounds i true)[j]?.getD true = true ↔ bs[j]?.getD true = true ∨ j = i := by
  by_cases hij : i = j
  · subst hij
    by_cases hi : i < bs.size <;> simp [hi]
  · by_cases hj : j < bs.size <;> simp [hij, Ne.symm hij, hj]

theorem has_add : (m.add size x).has z = true ↔ m.has z = true ∨ z = x := by
  cases x with
  | cell n =>
    cases z with
    | cell k => simp [Marks.add, Marks.has, getD_setIfInBounds]
    | value w => cases w <;> simp [Marks.add, Marks.has]
  | value v =>
    cases v with
    | table r | closure r =>
      cases z with
      | cell k => simp [Marks.add, Marks.has]
      | value w => cases w <;> simp [Marks.add, Marks.has, getD_setIfInBounds]
    | _ =>
      refine ⟨.inl, ?_⟩
      rintro (hz | rfl)
      · exact hz
      · rfl

theorem fits_add (hm : m.Fits h) : (m.add size x).Fits h := by
  obtain ⟨ht, hc, hf⟩ := hm
  unfold Marks.add
  split <;> exact ⟨by simpa, by simpa, by simpa⟩

theorem pending_add {α : Type} {bs : Array Bool} {xs : Array α} {w : α → Nat} {i : Nat} {x : α}
    (hi : bs.getD i true = false) (hx : xs[i]? = some x) :
    pending (bs.setIfInBounds i true).toList (xs.toList.map w) + w x =
      pending bs.toList (xs.toList.map w) := by
  rw [Array.toList_setIfInBounds]
  refine pending_set ?_ (by simp [hx])
  have hlt := lt_of_getD hi
  simpa [hlt] using hi

theorem left_add (hm : m.Fits h) (hx : m.has x = false) :
    (m.add size x).left h + h.weight x = m.left h := by
  cases x with
  | cell n =>
    have hlt : n < h.cells.size := hm.cells ▸ lt_of_getD hx
    have hp := pending_add (w := fun _ => 1) hx (Array.getElem?_eq_getElem hlt)
    simp only [Marks.left, Marks.add, weight]
    omega
  | value v =>
    cases v with
    | table r =>
      have hlt : r < h.tables.size := hm.tables ▸ lt_of_getD hx
      have hp := pending_add (w := tableWeight) hx (Array.getElem?_eq_getElem hlt)
      have ht : h.table r = h.tables[r] := by simp [table, hlt]
      simp only [Marks.left, Marks.add, weight, ht]
      omega
    | closure r =>
      have hlt : r < h.functions.size := hm.functions ▸ lt_of_getD hx
      have hp := pending_add (w := functionWeight) hx (Array.getElem?_eq_getElem hlt)
      simp only [Marks.left, Marks.add, weight, Array.getElem?_eq_getElem hlt, Option.map_some,
        Option.getD_some]
      omega
    | _ => cases hx

end Marks

section Mark

variable {h : Heap} {m : Marks} {x : Ref} {work : List Ref}

theorem mark_marked (hx : m.has x = true) (fuel : Nat) (work : List Ref) :
    ∃ size, h.mark (fuel + 1) (x :: work) m = h.mark fuel work { m with size := size } := by
  cases x with
  | cell n =>
    rw [mark]
    exact ⟨m.size, if_pos hx⟩
  | value v =>
    cases v with
    | table r | closure r =>
      rw [mark]
      exact ⟨m.size, if_pos hx⟩
    | str s => exact ⟨_, rfl⟩
    | nil | bool | int | float | routine | signal => exact ⟨m.size, rfl⟩

theorem mark_unmarked (hx : m.has x = false) (fuel : Nat) (work : List Ref) :
    ∃ added size, h.mark (fuel + 1) (x :: work) m = h.mark fuel (added ++ work) (m.add size x) ∧
      (∀ z ∈ h.parts x, z ∈ added) ∧ added.length ≤ h.weight x := by
  cases x with
  | cell n =>
    have hn : ¬ m.cells.getD n true = true := by simpa [Marks.has] using hx
    rw [mark, if_neg hn]
    exact ⟨[.value (h.cell n)], _, rfl, fun z hz => hz, Nat.le_refl _⟩
  | value v =>
    cases v with
    | table r =>
      have hr : ¬ m.tables.getD r true = true := by simpa [Marks.has] using hx
      rw [mark, if_neg hr]
      simp only [pushValues_eq]
      rw [← Array.foldl_toList]
      have hfold := foldl_members (h.table r).nodes.toList
        (((h.table r).items.toList.map .value).reverse ++ work)
      rw [← List.append_assoc] at hfold
      refine ⟨_, _, congrArg (fun w => h.mark fuel w _) hfold, fun z hz => ?_, ?_⟩
      · simp only [parts, partsOf, List.mem_append, List.mem_flatMap] at hz
        simp only [List.mem_append, List.mem_reverse, List.mem_flatMap]
        exact hz.symm
      · have hle := List.length_filter_le (!·.2.isNil) (h.table r).nodes.toList
        simp only [List.length_append, List.length_reverse, List.length_flatMap, List.length_map,
          List.length_cons, List.length_nil, List.map_const', List.sum_replicate_nat, weight,
          tableWeight, Array.length_toList] at hle ⊢
        omega
    | closure r =>
      have hr : ¬ m.functions.getD r true = true := by simpa [Marks.has] using hx
      rw [mark, if_neg hr]
      cases hf : h.functions[r]? with
      | none => exact ⟨[], _, rfl, by simp [parts, hf], Nat.zero_le _⟩
      | some c =>
        cases c with
        | walk w => exact ⟨[], _, rfl, by simp [parts, hf], Nat.zero_le _⟩
        | script f env =>
          refine ⟨_, _, congrArg (fun w => h.mark fuel w _) (foldl_cells env work), ?_, ?_⟩
          · simp [parts, hf]
          · simp [weight, hf, functionWeight]
    | _ => cases hx

/-- What is marked leads to what is marked, or will be looked at. -/
def Closed (h : Heap) (m : Marks) (work : List Ref) : Prop :=
  ∀ x, m.has x = true → ∀ z ∈ h.parts x, m.has z = true ∨ z ∈ work

theorem Closed.skip (hc : Closed h m (x :: work)) (hx : m.has x = true) (size : Nat) :
    Closed h { m with size := size } work := by
  intro y hy z hz
  rcases hc y hy z hz with hz | hz
  · exact .inl hz
  · rcases List.mem_cons.1 hz with rfl | hz
    · exact .inl hx
    · exact .inr hz

theorem Closed.add {added : List Ref} (hc : Closed h m (x :: work))
    (hparts : ∀ z ∈ h.parts x, z ∈ added) (size : Nat) :
    Closed h (m.add size x) (added ++ work) := by
  intro y hy z hz
  rw [has_add, List.mem_append]
  rcases has_add.1 hy with hy | rfl
  · rcases hc y hy z hz with hz | hz
    · exact .inl (.inl hz)
    · rcases List.mem_cons.1 hz with rfl | hz
      · exact .inl (.inr rfl)
      · exact .inr (.inr hz)
  · exact .inr (.inl (hparts z hz))

/-- Marking goes on until all that is looked at, and all that it leads to, is marked. -/
theorem mark_complete (fuel : Nat) (work : List Ref) (m : Marks) (hm : m.Fits h)
    (hclosed : Closed h m work) (hfuel : work.length + m.left h ≤ fuel) :
    (h.mark fuel work m).Fits h ∧ Closed h (h.mark fuel work m) [] ∧
      ∀ x, m.has x = true ∨ x ∈ work → (h.mark fuel work m).has x = true := by
  induction fuel generalizing work m with
  | zero =>
    obtain rfl : work = [] := List.eq_nil_of_length_eq_zero (by omega)
    exact ⟨hm, hclosed, fun x hx => by simpa [mark] using hx⟩
  | succ fuel ih =>
    cases work with
    | nil => exact ⟨hm, hclosed, fun x hx => by simpa [mark] using hx⟩
    | cons x work =>
      rw [List.length_cons] at hfuel
      by_cases hx : m.has x = true
      · obtain ⟨size, he⟩ := mark_marked hx fuel work
        rw [he]
        obtain ⟨hfits, hdone, hall⟩ := ih work { m with size := size }
          ⟨hm.tables, hm.cells, hm.functions⟩ (hclosed.skip hx size)
          (by simp only [Marks.left] at hfuel ⊢; omega)
        refine ⟨hfits, hdone, fun y hy => hall y ?_⟩
        rcases hy with hy | hy
        · exact .inl hy
        · rcases List.mem_cons.1 hy with rfl | hy
          · exact .inl hx
          · exact .inr hy
      · rw [Bool.not_eq_true] at hx
        obtain ⟨added, size, he, hparts, hlen⟩ := mark_unmarked hx fuel work
        rw [he]
        have hleft : (m.add size x).left h + h.weight x = m.left h := left_add hm hx
        obtain ⟨hfits, hdone, hall⟩ := ih (added ++ work) (m.add size x) (fits_add hm)
          (hclosed.add hparts size) (by rw [List.length_append]; omega)
        refine ⟨hfits, hdone, fun y hy => hall y ?_⟩
        rw [has_add, List.mem_append]
        rcases hy with hy | hy
        · exact .inl (.inl hy)
        · rcases List.mem_cons.1 hy with rfl | hy
          · exact .inl (.inr rfl)
          · exact .inr (.inr hy)

end Mark

section Collect

variable {h : Heap}

theorem fits_none (h : Heap) : (Marks.none h).Fits h := by
  constructor <;> simp [Marks.none]

theorem closed_none (h : Heap) (work : List Ref) : Closed h (.none h) work := by
  intro x hx z hz
  cases x with
  | cell n =>
    have hn : h.cells[n]? = none := by
      rw [Array.getElem?_eq_none_iff]
      by_contra hlt
      simp [Marks.none, Marks.has, Nat.lt_of_not_le hlt] at hx
    obtain rfl : z = .value .nil := by simpa [parts, cell, hn] using hz
    exact .inl rfl
  | value v =>
    cases v with
    | table r =>
      have hr : h.tables[r]? = none := by
        rw [Array.getElem?_eq_none_iff]
        by_contra hlt
        simp [Marks.none, Marks.has, Nat.lt_of_not_le hlt] at hx
      simp [parts, partsOf, table, hr, Table.empty] at hz
    | closure r =>
      have hr : h.functions[r]? = none := by
        rw [Array.getElem?_eq_none_iff]
        by_contra hlt
        simp [Marks.none, Marks.has, Nat.lt_of_not_le hlt] at hx
      simp [parts, hr] at hz
    | _ => cases hz

theorem sum_le_foldl {α : Type} {f : Nat → α → Nat} {w : α → Nat}
    (hf : ∀ n x, n + w x ≤ f n x) (xs : List α) (n : Nat) :
    n + (xs.map w).sum ≤ xs.foldl f n := by
  induction xs generalizing n with
  | nil => exact Nat.le_refl _
  | cons x xs ih =>
    rw [List.map_cons, List.sum_cons, List.foldl_cons, ← Nat.add_assoc]
    exact Nat.le_trans (Nat.add_le_add_right (hf n x) _) (ih _)

theorem left_none (h : Heap) : (Marks.none h).left h ≤ h.edges := by
  have hpending {α : Type} (w : α → Nat) (xs : Array α) :
      pending (Array.replicate xs.size false).toList (xs.toList.map w) = (xs.toList.map w).sum := by
    rw [Array.toList_replicate, ← Array.length_toList, ← List.length_map w, pending_replicate]
  rw [Marks.left, Marks.none, hpending, hpending, hpending, edges, ← Array.foldl_toList,
    ← Array.foldl_toList]
  have hcells : (h.cells.toList.map fun _ => 1).sum ≤ 2 * h.cells.size := by
    simp
    omega
  rw [Nat.add_right_comm]
  refine Nat.add_le_add (Nat.add_le_add ?_ ?_) hcells
  · rw [← Nat.zero_add (List.sum _)]
    exact sum_le_foldl (fun n t => by simp only [tableWeight]; omega) _ 0
  · rw [← Nat.zero_add (List.sum _)]
    exact sum_le_foldl (fun n c => by cases c <;> simp only [functionWeight] <;> omega) _ 0

/-- All that can be reached from the roots is marked. -/
theorem has_of_reach {roots : List Ref} {x : Ref} (hx : h.Reach roots x) :
    (h.mark (h.edges + roots.length + 1) roots (.none h)).has x = true := by
  have hleft := left_none h
  obtain ⟨-, hclosed, hall⟩ := mark_complete (h.edges + roots.length + 1) roots (.none h)
    (fits_none h) (closed_none h roots) (by omega)
  induction hx with
  | root hx => exact hall _ (.inr hx)
  | part _ hy ih => exact (hclosed _ ih _ hy).resolve_right List.not_mem_nil

variable {roots : List Ref} {n r : Nat}

theorem mark_fits (h : Heap) (roots : List Ref) :
    (h.mark (h.edges + roots.length + 1) roots (.none h)).Fits h := by
  have hleft := left_none h
  exact (mark_complete _ roots (.none h) (fits_none h) (closed_none h roots) (by omega)).1

theorem getD_collect {α : Type} {bs : Array Bool} {xs : Array α} {i : Nat} (empty : α)
    (hsize : bs.size = xs.size) (hi : bs.getD i true = true) :
    (xs.mapIdx fun i x => if bs.getD i false then x else empty).getD i empty =
      xs.getD i empty := by
  by_cases hlt : i < xs.size
  · have hb : bs[i]?.getD false = true := by simpa [hsize, hlt] using hi
    simp [hlt, hb]
  · simp [hlt]

/-- A table that can be reached from the roots is not changed by a collection. -/
theorem table_collect (hr : h.Reach roots (.value (.table r))) (frames : Nat) :
    (h.collect roots frames).table r = h.table r :=
  getD_collect Table.empty (mark_fits h roots).tables (has_of_reach hr)

theorem cell_collect (hn : h.Reach roots (.cell n)) (frames : Nat) :
    (h.collect roots frames).cell n = h.cell n :=
  getD_collect Value.nil (mark_fits h roots).cells (has_of_reach hn)

end Collect

end Rulebook.Script.Heap
