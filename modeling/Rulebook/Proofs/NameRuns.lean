import Rulebook.Proofs.Collection
import Rulebook.Proofs.Copies
import Rulebook.Proofs.SafeWords

namespace Rulebook.Rule

/-- A name that stands for a value: no word of the scripts, and no other word for `nil`. -/
structure IsVariable (name : String) : Prop where
  ident : Text.isIdent name = true
  free : name ∉ Script.Token.reserved
  present : name ≠ "null" ∧ name ≠ "undefined"

variable {name : String}

theorem IsVariable.toList_eq (h : IsVariable name) :
    ∃ c cs, name.toList = c :: cs ∧ Text.isIdentStart c = true ∧
      ∀ d ∈ cs, Text.isIdentRest d = true := by
  have hi := h.ident
  unfold Text.isIdent at hi
  split at hi
  · cases hi
  · next c cs he =>
    rw [Bool.and_eq_true, List.all_eq_true] at hi
    exact ⟨c, cs, he, hi.1, hi.2⟩

theorem lower_name (h : IsVariable name) : lower name = .ok name := by
  obtain ⟨c, cs, hname, hc, hcs⟩ := h.toList_eq
  have hpiece : Piece (c :: cs) ⟨some .ident, c :: cs⟩ [] := by
    have hp := Piece.name (x := cs) hc
    rwa [List.takeWhile_eq_self_iff.2 hcs, List.dropWhile_eq_nil_iff.2 hcs] at hp
  have hread : lexemes 0 name.toList = .ok [⟨some .ident, c :: cs⟩] := by
    rw [hname]
    exact lexemes_eq_ok.2 (.step hpiece (.refl _))
  have hspelling : spelling .ident (c :: cs) = c :: cs := by
    rw [← hname]
    unfold spelling
    split
    case h_7 he => exact absurd (String.toList_inj.1 he) h.present.1
    case h_8 he => exact absurd (String.toList_inj.1 he) h.present.2
    all_goals first | rfl | contradiction
  rw [lower, hread]
  show Except.ok (String.ofList (spelling .ident (c :: cs) ++ [])) = _
  rw [hspelling, List.append_nil, ← hname, String.ofList_toList]

end Rulebook.Rule

namespace Rulebook.Script

open Rule (IsVariable returnChunk)

namespace Chunk

variable {name : String}

def giving (e : Expr) : Body := .mk 0 true [.give [.first e]]

theorem scans_name (h : IsVariable name) :
    Token.Scans (returnChunk name).toList
      [.sign "return", .sign "(", .name name, .sign ")", .finish] := by
  obtain ⟨c, cs, hname, hc, hcs⟩ := h.toList_eq
  have htext : (returnChunk name).toList =
      "return (\n".toList ++ (c :: (cs ++ ['\n', ')'])) := by
    simp [returnChunk, hname]
  have hstop : Text.isIdentRest '\n' = false := rfl
  have hword : Token.word (c :: cs) = .name name := by
    rw [Token.word, ← hname, String.ofList_toList, if_neg h.free]
  have hstep : Token.step c (cs ++ ['\n', ')']) 0 = .ok (some (.name name), ['\n', ')'], 0) := by
    rw [Token.step_name hc, List.takeWhile_append_of_pos hcs, List.dropWhile_append_of_pos hcs]
    simp [hstop, hword]
  rw [htext]
  exact Rule.scans_returnChunk.2
    ⟨_, rfl, (Token.scans_step hstep).2 ⟨_, rfl, Rule.scans_closing.2 rfl⟩⟩

theorem parse_name (h : IsVariable name) :
    ∃ line, parse (returnChunk name) = .ok (giving (named outermost name line)) := by
  obtain ⟨ts, hts, hmap⟩ := (Token.all_eq_ok _).2 (scans_name h)
  simp only [List.map_eq_cons_iff, List.map_eq_nil_iff] at hmap
  obtain ⟨⟨_, a⟩, _, rfl, rfl, ⟨_, b⟩, _, rfl, rfl, ⟨_, c⟩, _, rfl, rfl, ⟨_, d⟩, _, rfl, rfl,
    ⟨_, e⟩, _, rfl, rfl, rfl⟩ := hmap
  refine ⟨c, ?_⟩
  rw [parse, hts, ok_bind]
  by_cases hn : "_ENV" = name
  · subst hn
    simp [block, token, atSign, endsBlock, enter, exprs, expr, unary?, simple, primary, operators,
      operator?, closing, suffixes, outermost, named, find?, maxLevel, bind, Except.bind, giving,
      checkJumps, Jump.check, Jump.checkBlock, Jump.checkStmt, Except.mapError]
  · simp [block, token, atSign, endsBlock, enter, exprs, expr, unary?, simple, primary, operators,
      operator?, closing, suffixes, outermost, named, find?, maxLevel, bind, Except.bind, giving,
      checkJumps, Jump.check, Jump.checkBlock, Jump.checkStmt, Except.mapError, hn]

end Chunk

section Collecting

variable {h : Heap} {roots : List Heap.Ref} {n : Nat} {v : Value} {j : Json}

theorem Copies.collect (hc : Copies h n v j) (hv : h.Reach roots (.value v)) (frames : Nat) :
    Copies (h.collect roots frames) n v j := by
  induction hc with
  | null => exact .null _
  | bool => exact .bool _ _
  | int _ hi => exact .int _ hi
  | float => exact .float _ _
  | str => exact .str _ _
  | arr hr hg ht hlen _ ih =>
    refine .arr hr hg ((Heap.table_collect hv frames).trans ht) hlen fun p hp => ih p hp ?_
    refine .part hv ?_
    rw [Heap.parts, ht]
    exact List.mem_append_left _ (List.mem_map_of_mem (List.of_mem_zip hp).1)
  | @obj n r fields members hr hg ht hnames hvs ih =>
    refine .obj hr hg (by rwa [Heap.table_collect hv frames]) hnames fun p hp => ?_
    by_cases hp' : p.1.2 = .nil
    · have hnull := (hvs p hp).eq_nil_iff.1 hp'
      rw [hp', hnull]
      exact .null _
    · refine ih p hp (.part hv ?_)
      rw [Heap.parts]
      refine List.mem_append_right _ (List.mem_flatMap.2
        ⟨(.str (bytes p.1.1), p.1.2), ?_, by simp⟩)
      rw [ht.filter_nodes, ht.nodes]
      refine List.mem_map.2 ⟨p.1, List.mem_filter.2 ⟨(List.of_mem_zip hp).1, ?_⟩, rfl⟩
      rw [Value.isNil_eq_false_iff.2 hp']
      rfl

theorem Short.collect (hs : Short h n) (roots : List Heap.Ref) (frames : Nat) :
    Short (h.collect roots frames) n := by
  intro r hr hg
  refine Nat.lt_of_le_of_lt ?_ (hs r hr hg)
  simp only [Heap.collect, Heap.table, Array.getD_eq_getD_getElem?, Array.getElem?_mapIdx]
  cases h.tables[r]? with
  | none => exact Nat.le_refl _
  | some t =>
    simp only [Option.map_some, Option.getD_some]
    split
    · exact Nat.le_refl _
    · exact Nat.zero_le _

end Collecting

/-- What a script finds that was made of a name and its value: the globals with a copy of the value,
and its own function. -/
structure Holds (body : Body) (t : Table) (name : String) (j : Json) (h : Heap) : Prop where
  globals : h.table Machine.globals = t
  sight : h.cell 0 = .table Machine.globals
  function : h.functions[0]? = some (.script body [0])
  copies : Copies h h.tables.size (t.getKey (.str (bytes name))) j
  short : Short h h.tables.size

section Holds

variable {body : Body} {t : Table} {name : String} {j : Json} {h : Heap}
  {roots : List Heap.Ref}

theorem reach_global (hh : Holds body t name j h) (ht : t.Textual)
    (hroot : .value (.table Machine.globals) ∈ roots)
    (hne : t.getKey (.str (bytes name)) ≠ .nil) :
    h.Reach roots (.value (t.getKey (.str (bytes name)))) := by
  refine .part (.root hroot) ?_
  have hn := Value.isNil_eq_false_iff.2 hne
  have hnode := (ht.node_iff hn).1 (ht.getKey_eq _).symm
  rw [Heap.parts, hh.globals]
  refine List.mem_append_right _ (List.mem_flatMap.2
    ⟨_, List.mem_filter.2 ⟨hnode, ?_⟩, by simp⟩)
  rw [hn]
  rfl

/-- A collection that keeps the globals in sight keeps what the script finds. -/
theorem Holds.collect (hh : Holds body t name j h) (ht : t.Textual)
    (hroot : .value (.table Machine.globals) ∈ roots) (hcell : h.Reach roots (.cell 0))
    (frames : Nat) : Holds body t name j (h.collect roots frames) := by
  have hsize : (h.collect roots frames).tables.size = h.tables.size := by simp [Heap.collect]
  refine ⟨(Heap.table_collect (.root hroot) frames).trans hh.globals,
    (Heap.cell_collect hcell frames).trans hh.sight, hh.function, ?_, ?_⟩
  · rw [hsize]
    by_cases hne : t.getKey (.str (bytes name)) = .nil
    · have hnull := hh.copies.eq_nil_iff.1 hne
      rw [hne, hnull]
      exact .null _
    · exact hh.copies.collect (reach_global hh ht hroot hne) frames
  · rw [hsize]
    exact hh.short.collect roots frames

theorem Holds.counting (hh : Holds body t name j h) (used : Nat) :
    Holds body t name j { h with used := used } :=
  ⟨hh.globals, hh.sight, hh.function, hh.copies.mono (fun _ _ _ => rfl) (Nat.le_refl _), hh.short⟩

end Holds

namespace Machine

def prepared (clock : Clock) (m : Machine) : Machine :=
  let m := if isInstruction m.control then m.tick clock else m
  if isInstruction m.control && m.heap.isFull then m.reclaim else m

inductive Passing : Frame → Prop
  | values (done : List Value) (rest : List Expr) (ctx : Context) (use : Use) :
    Passing (.values done rest ctx use)
  | block (all : List Stmt) (outer : Nat) (rest : List Stmt) (ctx : Context) :
    Passing (.block all outer rest ctx)
  | call (line : Nat) : Passing (.call line)

structure Raising (m : Machine) : Prop where
  control : ∃ v, m.control = .raise v
  stack : ∀ f ∈ m.stack, Passing f

section Advance

variable {clock : Clock} {m m' : Machine} {o : Outcome} {fuel : Nat}

theorem advance_eq (clock : Clock) (m : Machine) :
    ∃ fired, m.advance clock = { (m.prepared clock).step clock with fired := fired } := by
  by_cases ht : isTimedOut ((m.prepared clock).step clock).control = true
  · exact ⟨true, if_pos ht⟩
  · exact ⟨_, if_neg ht⟩

theorem tick_cases (clock : Clock) (m : Machine) :
    (m.tick clock).stack = m.stack ∧ (m.tick clock).heap = m.heap ∧
      (m.tick clock).depth = m.depth ∧ (m.tick clock).ticks = m.ticks + 1 ∧
      ((m.tick clock).control = m.control ∨
        clock.budget ≤ m.ticks + 1 ∧ ∃ v, (m.tick clock).control = .raise v) := by
  unfold tick
  simp only
  split
  · split
    · next hl => exact ⟨rfl, rfl, rfl, rfl, .inr ⟨of_decide_eq_true hl, _, rfl⟩⟩
    · exact ⟨rfl, rfl, rfl, rfl, .inl rfl⟩
  · exact ⟨rfl, rfl, rfl, rfl, .inl rfl⟩

theorem reclaim_cases (m : Machine) :
    m.reclaim.stack = m.stack ∧ m.reclaim.depth = m.depth ∧ m.reclaim.ticks = m.ticks ∧
      m.reclaim.heap = m.heap.collect (roots m.control m.stack) (frameSize * m.depth) ∧
      (m.reclaim.control = m.control ∨ ∃ v, m.reclaim.control = .raise v) := by
  unfold reclaim
  simp only
  split
  · exact ⟨rfl, rfl, rfl, rfl, .inr ⟨_, rfl⟩⟩
  · exact ⟨rfl, rfl, rfl, rfl, .inl rfl⟩

/-- Before a step the clock may have run out and the heap may have been cleaned up. Neither happens
as long as there is time and room. -/
theorem prepared_cases (clock : Clock) (m : Machine) :
    (m.prepared clock).stack = m.stack ∧ (m.prepared clock).depth = m.depth ∧
      (m.prepared clock).ticks ≤ m.ticks + 1 ∧
      ((m.prepared clock).control = m.control ∨
        (clock.budget ≤ m.ticks + 1 ∨ m.heap.isFull = true) ∧
          ∃ v, (m.prepared clock).control = .raise v) ∧
      ((m.prepared clock).heap = m.heap ∨
        m.heap.isFull = true ∧ isInstruction m.control = true ∧ ∃ frames,
          (m.prepared clock).heap = m.heap.collect (roots m.control m.stack) frames) := by
  unfold prepared
  simp only
  by_cases hi : isInstruction m.control = true
  · obtain ⟨hs, hh, hd, ht, hc⟩ := tick_cases clock m
    rw [if_pos hi]
    rcases hc with hc | ⟨hb, v, hc⟩
    · by_cases hf : m.heap.isFull = true
      · obtain ⟨hs', hd', ht', hh', hc'⟩ := reclaim_cases (m.tick clock)
        rw [hc, hs, hh] at hh'
        rw [if_pos (by rw [hc, hi, hh, hf]; rfl), hs', hd', ht', hs, hd, ht]
        refine ⟨rfl, rfl, Nat.le_refl _, ?_, .inr ⟨hf, hi, _, hh'⟩⟩
        rcases hc' with hc' | hc'
        · exact .inl (hc'.trans hc)
        · exact .inr ⟨.inr hf, hc'⟩
      · rw [if_neg (by simp [hh, hf]), ht]
        exact ⟨hs, hd, Nat.le_refl _, .inl hc, .inl hh⟩
    · rw [if_neg (by simp [hc, isInstruction]), ht]
      exact ⟨hs, hd, Nat.le_refl _, .inr ⟨.inl hb, v, hc⟩, .inl hh⟩
  · rw [if_neg hi, if_neg (by simp [hi])]
    exact ⟨rfl, rfl, Nat.le_succ _, .inl rfl, .inl rfl⟩

theorem raising_step (h : Raising m) (clock : Clock) : Raising (m.step clock) := by
  obtain ⟨⟨v, hc⟩, hs⟩ := h
  have hstep : m.step clock = m.unwind v := by rw [step, hc]
  rw [hstep]
  cases hm : m.stack with
  | nil =>
    simp only [unwind, hm]
    exact ⟨⟨v, hc⟩, hs⟩
  | cons f fs =>
    have hfs : ∀ g ∈ fs, Passing g := fun g hg => hs g (by rw [hm]; exact .tail _ hg)
    cases hs f (by rw [hm]; exact List.mem_cons_self) with
    | values | block | call =>
      simp only [unwind, hm]
      exact ⟨⟨v, hc⟩, hfs⟩

theorem raising_advance (h : Raising m) (clock : Clock) : Raising (m.advance clock) := by
  obtain ⟨fired, he⟩ := advance_eq clock m
  obtain ⟨v, hc⟩ := h.control
  have hp : m.prepared clock = m := by simp [prepared, hc, isInstruction]
  rw [he, hp]
  exact ⟨(raising_step h clock).control, (raising_step h clock).stack⟩

/-- An error that nothing deals with is the outcome. -/
theorem run_raising (h : Raising m) (hr : run clock fuel m = some (o, m')) :
    ∃ v, o = .error v := by
  induction fuel generalizing m with
  | zero => cases hr
  | succ fuel ih =>
    rw [run] at hr
    split at hr
    · next ho =>
      cases hr
      obtain ⟨v, hc⟩ := h.control
      rw [outcome?, hc] at ho
      split at ho
      · contradiction
      · cases ho
        exact ⟨_, rfl⟩
      · cases ho
    · exact ih (raising_advance h clock) hr

end Advance

def outside : Context := ⟨[0], []⟩

def giving (e : Expr) : List Frame := [.block [.give [.first e]] 1 [] outside, .call 0]

def taking (e : Expr) : List Frame := .values [] [] outside .give :: giving e

inductive Denotes (t : Table) : Expr → Value → Prop
  | member (s : ByteArray) (line : Nat) :
    Denotes t (.index (.var 0) (.str s) line) (t.getKey (.str s))
  | globals : Denotes t (.var 0) (.table globals)

/-- How far a chunk has come that gives the value `w` of an expression: the number of steps that are
left, with the control and the frames. -/
inductive Stage (e : Expr) (w : Value) : Nat → Control → List Frame → Prop
  | start : Stage e w 14 (.call (.closure 0) [] 0) []
  | body : Stage e w 13 .next
    [.block [.give [.first e]] 1 [.give [.first e]] outside, .call 0]
  | given : Stage e w 12 (.eval [] [.first e] outside .give) (giving e)
  | expr : Stage e w 11 (.eval [] [e] outside .first) (taking e)
  | table {s : ByteArray} {line : Nat} (he : e = .index (.var 0) (.str s) line) :
    Stage e w 10 (.eval [] [.var 0, .str s] outside (.index line))
      (.values [] [] outside .first :: taking e)
  | key {s : ByteArray} {line : Nat} (he : e = .index (.var 0) (.str s) line) :
    Stage e w 9 (.eval [.table globals] [.str s] outside (.index line))
      (.values [] [] outside .first :: taking e)
  | both {s : ByteArray} {line : Nat} (he : e = .index (.var 0) (.str s) line) :
    Stage e w 8 (.eval [.str s, .table globals] [] outside (.index line))
      (.values [] [] outside .first :: taking e)
  | index {s : ByteArray} {line : Nat} (he : e = .index (.var 0) (.str s) line) :
    Stage e w 7 (.use (.index line) [.table globals, .str s])
      (.values [] [] outside .first :: taking e)
  | member : Stage e w 6 (.values [w]) (.values [] [] outside .first :: taking e)
  | atom : Stage e w 6 (.eval [w] [] outside .first) (taking e)
  | first : Stage e w 5 (.use .first [w]) (taking e)
  | value : Stage e w 4 (.values [w]) (taking e)
  | use : Stage e w 3 (.use .give [w]) (giving e)
  | leave : Stage e w 2 (.give [w]) (giving e)
  | back : Stage e w 1 (.give [w]) [.call 0]
  | done : Stage e w 0 (.values [w]) []

/-- Bytes that are still to be counted with a number of steps left. -/
def due (k : Nat) : Nat := if k = 14 then frameSize else 0

/-- A machine on the way to giving the value `w`. -/
structure Stands (e : Expr) (w : Value) (t : Table) (name : String) (j : Json) (k : Nat)
    (m : Machine) : Prop where
  stage : Stage e w k m.control m.stack
  holds : Holds (Chunk.giving e) t name j m.heap
  depth : k = 14 → m.depth = 0

structure Ample (clock : Clock) (k : Nat) (m : Machine) : Prop where
  time : m.ticks + k < clock.budget
  room : m.heap.used + due k ≤ m.heap.bound

section Stages

variable {clock : Clock} {m m' : Machine} {o : Outcome} {fuel k : Nat} {e : Expr} {w : Value}
  {t : Table} {name : String} {j : Json} {control : Control} {stack : List Frame} {h : Heap}

theorem Stage.passing (hs : Stage e w k control stack) : ∀ f ∈ stack, Passing f := by
  cases hs <;> simp [taking, giving, Passing.values, Passing.block, Passing.call]

theorem Stage.reach (hs : Stage e w k control stack) (hi : isInstruction control = true)
    (hh : Holds (Chunk.giving e) t name j h) : h.Reach (roots control stack) (.cell 0) := by
  cases hs with
  | start =>
    refine .part (x := .value (.closure 0)) (.root (by simp [roots, ofControl])) ?_
    simp [Heap.parts, hh.function]
  | index | first | use =>
    exact .root (by simp [roots, taking, giving, ofFrame, ofContext, outside])
  | _ => cases hi

theorem globals_mem_roots (control : Control) (stack : List Frame) :
    .value (.table globals) ∈ roots control stack := List.mem_cons_self

def Nears (e : Expr) (w : Value) (t : Table) (name : String) (j : Json) (k : Nat)
    (m m' : Machine) : Prop :=
  ∃ k' < k, Stands e w t name j k' m' ∧ m'.ticks = m.ticks ∧ m'.heap.bound = m.heap.bound ∧
    m'.heap.used + due k' ≤ m.heap.used + due k

theorem Stands.nears {k' : Nat} (hm : Stands e w t name j k m) (hk : k' < k)
    (hs : Stage e w k' control stack) (hlast : k' ≠ 14)
    (he : m' = { m with control := control, stack := stack }) : Nears e w t name j k m m' := by
  subst he
  refine ⟨k', hk, ⟨hs, hm.holds, fun h => absurd h hlast⟩, rfl, rfl, ?_⟩
  rw [due, if_neg hlast]
  exact Nat.add_le_add_left (Nat.zero_le _) _

/-- A step brings the machine nearer to the end. -/
theorem Stands.step (hm : Stands e w t name j k m) (he : Denotes t e w) (hk : k ≠ 0)
    (clock : Clock) : Nears e w t name j k m (m.step clock) := by
  obtain ⟨hstage, hh, hdepth⟩ := id hm
  obtain ⟨control, stack, h, ticks, wait, fired, depth, routines⟩ := m
  simp only at hstage hh hdepth
  -- every stage is left in one step; only the first and the last change the bytes in use
  cases hstage with
  | start =>
    obtain rfl := hdepth rfl
    have hstep : (⟨.call (.closure 0) [] 0, [], h, ticks, wait, fired, 0, routines⟩ : Machine).step
        clock = ⟨.next, [.block [.give [.first e]] 1 [.give [.first e]] outside, .call 0],
          h.charge frameSize, ticks, wait, fired, 1, routines⟩ := by
      rw [Machine.step]
      simp only [call, hh.function, Chunk.giving]
      rfl
    rw [hstep]
    exact ⟨13, by decide, ⟨.body, hh.counting _, nofun⟩, rfl, rfl, Nat.le_refl _⟩
  | body => exact hm.nears (by decide) .given (by decide) rfl
  | given => exact hm.nears (by decide) .expr (by decide) rfl
  | expr =>
    cases he with
    | member s line => exact hm.nears (by decide) (.table rfl) (by decide) rfl
    | globals =>
      refine hm.nears (by decide) .atom (by decide) ?_
      simp only [Machine.step, atom?, outside, List.getElem?_cons_zero, hh.sight, go]
  | table he' =>
    refine hm.nears (by decide) (.key he') (by decide) ?_
    simp only [Machine.step, atom?, outside, List.getElem?_cons_zero, hh.sight, go]
  | key he' => exact hm.nears (by decide) (.both he') (by decide) rfl
  | both he' => exact hm.nears (by decide) (.index he') (by decide) rfl
  | index he' =>
    subst he'
    cases he
    refine hm.nears (by decide) .member (by decide) ?_
    rw [← hh.globals]
    rfl
  | member => exact hm.nears (by decide) .first (by decide) rfl
  | atom => exact hm.nears (by decide) .first (by decide) rfl
  | first => exact hm.nears (by decide) .value (by decide) rfl
  | value => exact hm.nears (by decide) .use (by decide) rfl
  | use => exact hm.nears (by decide) .leave (by decide) rfl
  | leave => exact hm.nears (by decide) .back (by decide) rfl
  | back =>
    have hstep : (⟨.give [w], [.call 0], h, ticks, wait, fired, depth, routines⟩ : Machine).step
        clock = ⟨.values [w], [], h.release frameSize, ticks, wait, fired, depth - 1, routines⟩ :=
      rfl
    rw [hstep]
    have hbound : (h.release frameSize).bound = h.bound := by
      unfold Heap.bound Heap.release
      rfl
    refine ⟨0, by decide, ⟨.done, hh.counting _, nofun⟩, rfl, hbound, ?_⟩
    exact Nat.add_le_add_right (Nat.sub_le h.used frameSize) 0
  | done => exact absurd rfl hk

theorem Stands.prepared (hm : Stands e w t name j k m) (ht : t.Textual) (clock : Clock) :
    Raising (m.prepared clock) ∨ Stands e w t name j k (m.prepared clock) := by
  obtain ⟨hs, hd, -, hc, hh⟩ := prepared_cases clock m
  rcases hc with hc | ⟨-, v, hc⟩
  · refine .inr ⟨by rw [hc, hs]; exact hm.stage, ?_, by rw [hd]; exact hm.depth⟩
    rcases hh with hh | ⟨-, hi, frames, hh⟩
    · rw [hh]
      exact hm.holds
    · rw [hh]
      exact hm.holds.collect ht (globals_mem_roots _ _) (hm.stage.reach hi hm.holds) frames
  · exact .inl ⟨⟨v, hc⟩, by rw [hs]; exact hm.stage.passing⟩

theorem Stands.advance (hm : Stands e w t name j k m) (he : Denotes t e w) (ht : t.Textual)
    (hk : k ≠ 0) (clock : Clock) :
    Raising (m.advance clock) ∨ ∃ k' < k, Stands e w t name j k' (m.advance clock) := by
  obtain ⟨fired, ha⟩ := advance_eq clock m
  rw [ha]
  rcases hm.prepared ht clock with hr | hp
  · exact .inl ⟨(raising_step hr clock).control, (raising_step hr clock).stack⟩
  · obtain ⟨k', hlt, hs, -⟩ := hp.step he hk clock
    exact .inr ⟨k', hlt, hs.stage, hs.holds, hs.depth⟩

theorem Stands.advance_ample (hm : Stands e w t name j k m) (he : Denotes t e w) (hk : k ≠ 0)
    (ha : Ample clock k m) :
    ∃ k' < k, Stands e w t name j k' (m.advance clock) ∧ Ample clock k' (m.advance clock) := by
  have hfull : m.heap.isFull = false := by
    have := ha.room
    rw [Heap.isFull, decide_eq_false_iff_not]
    omega
  have htime := ha.time
  have hroom := ha.room
  obtain ⟨hs, hd, hticks, hc, hh⟩ := prepared_cases clock m
  have hc := hc.resolve_right fun h => by
    rcases h.1 with h | h
    · omega
    · rw [hfull] at h
      cases h
  have hh := hh.resolve_right fun h => by
    rw [hfull] at h
    cases h.1
  have hp : Stands e w t name j k (m.prepared clock) :=
    ⟨by rw [hc, hs]; exact hm.stage, by rw [hh]; exact hm.holds, by rw [hd]; exact hm.depth⟩
  obtain ⟨k', hlt, hs', hticks', hbound, hused⟩ := hp.step he hk clock
  obtain ⟨fired, hadvance⟩ := advance_eq clock m
  rw [hh] at hbound hused
  rw [hadvance]
  exact ⟨k', hlt, ⟨hs'.stage, hs'.holds, hs'.depth⟩, ⟨by simp only; omega, by simp only; omega⟩⟩

theorem Stage.outcome (hs : Stage e w k m.control m.stack) :
    m.outcome? = if k = 0 then some (.values [w]) else none := by
  obtain ⟨control, stack, h, ticks, wait, fired, depth, routines⟩ := m
  cases hs <;> rfl

/-- A run that ends gives the value, or ends in an error. -/
theorem Stands.run (hm : Stands e w t name j k m) (he : Denotes t e w) (ht : t.Textual)
    (hr : run clock fuel m = some (o, m')) :
    (∃ v, o = .error v) ∨ o = .values [w] ∧ Holds (Chunk.giving e) t name j m'.heap := by
  induction fuel generalizing k m with
  | zero => cases hr
  | succ fuel ih =>
    rw [Machine.run, hm.stage.outcome] at hr
    by_cases hk : k = 0
    · rw [if_pos hk] at hr
      cases hr
      exact .inr ⟨rfl, hm.holds⟩
    · rw [if_neg hk] at hr
      rcases hm.advance he ht hk clock with h | ⟨k', -, h⟩
      · exact .inl (run_raising h hr)
      · exact ih h hr

theorem Stands.run_ample (hm : Stands e w t name j k m) (he : Denotes t e w)
    (ha : Ample clock k m) (hf : k < fuel) :
    ∃ m', Machine.run clock fuel m = some (.values [w], m') ∧
      Holds (Chunk.giving e) t name j m'.heap := by
  induction fuel generalizing k m with
  | zero => cases hf
  | succ fuel ih =>
    rw [Machine.run, hm.stage.outcome]
    by_cases hk : k = 0
    · rw [if_pos hk]
      exact ⟨m, rfl, hm.holds⟩
    · rw [if_neg hk]
      obtain ⟨k', hlt, h, ha'⟩ := hm.advance_ample he hk ha
      exact ih h ha' (by omega)

end Stages

end Machine

section Evaluate

variable {limits : Limits} {name : String} {j r : Json} {e : Expr} {line : Nat}

def context (limits : Limits) (name : String) (j : Json) : Heap :=
  (Heap.fresh limits.memory).install [(name, j)]

def loaded (h : Heap) (size : Nat) (e : Expr) : Heap :=
  (((h.charge size).newCell (.table Machine.globals)).2.newClosure
    (.script (Chunk.giving e) [0])).2

theorem denotes_named (t : Table) (name : String) (line : Nat) :
    Machine.Denotes t (Chunk.named Chunk.outermost name line)
      (if name = "_ENV" then .table Machine.globals else t.getKey (.str (bytes name))) := by
  by_cases hn : name = "_ENV"
  · subst hn
    exact .globals
  · have hfind : Chunk.find? name [("_ENV", .plain)] = none := by
      simp [Chunk.find?, Ne.symm hn]
    simp only [Chunk.named, Chunk.outermost, hfind, if_neg hn]
    exact .member _ line

theorem holds_loaded {h : Heap} (size : Nat) (hcells : h.cells = #[])
    (hfunctions : h.functions = #[]) (hc : Copies h h.tables.size (h.global name) j)
    (hs : Short h h.tables.size) :
    Holds (Chunk.giving e) (h.table Machine.globals) name j (loaded h size e) := by
  refine ⟨rfl, ?_, ?_, hc.mono (fun _ _ _ => rfl) (Nat.le_refl _), hs⟩
  · simp [loaded, Heap.cell, Heap.newCell, Heap.newClosure, Heap.charge, hcells]
  · simp [loaded, Heap.newCell, Heap.newClosure, Heap.charge, hfunctions]

theorem isFull_of_charge {h : Heap} {n : Nat} (hfull : (h.charge n).isFull = false) :
    h.isFull = false := by
  have hbound : (h.charge n).bound = h.bound := rfl
  have hused : (h.charge n).used = h.used + n := rfl
  rw [Heap.isFull, decide_eq_false_iff_not, hbound, hused] at hfull
  rw [Heap.isFull, decide_eq_false_iff_not]
  omega

theorem installed_context (limits : Limits) (name : String) (hj : j.Distinct) :
    Heap.Installed [(name, j)] (Heap.fresh limits.memory) (context limits name j) :=
  Heap.installed (Heap.stocked_fresh _) (List.nodup_singleton name)
    (List.forall_mem_singleton.2 hj)

theorem cells_context (limits : Limits) (name : String) (hj : j.Distinct) :
    (context limits name j).cells = #[] := (installed_context limits name hj).cells

theorem functions_context (limits : Limits) (name : String) (hj : j.Distinct) :
    (context limits name j).functions = #[] := (installed_context limits name hj).functions

theorem stands_loaded {size : Nat} {w : Value} (hj : j.Distinct) (clock : Clock)
    (hfull : ((context limits name j).charge size).isFull = false) :
    Machine.Stands e w ((context limits name j).table Machine.globals) name j 14
      (.start (.closure 0) (loaded (context limits name j) size e) clock) := by
  have hi := installed_context limits name hj
  have hcells := cells_context limits name hj
  have hfunctions := functions_context limits name hj
  generalize context limits name j = h at hi hcells hfunctions hfull ⊢
  exact ⟨.start, holds_loaded size hcells hfunctions (hi.copies _ List.mem_cons_self)
    (hi.stocked.short (isFull_of_charge hfull)), fun _ => rfl⟩

def concluded (limits : Limits) : Option (Machine.Outcome × Machine) → Except EvalFault Json
  | none => .error (.timeout limits.timeoutMs)
  | some (.error v, m) => .error (faultOf limits m.fired v)
  | some (.values vs, m) =>
    (Exchange.result m.heap (Machine.head vs)).mapError fun f => .unrepresentable f.message

/-- `runChunk` with the machine's runs as a parameter, since a run of that many steps must not be
unfolded. -/
def runChunkWith (run : Clock → Nat → Machine → Option (Machine.Outcome × Machine))
    (limits : Limits) (chunk : String) (context : Fields Json) : Except EvalFault Json :=
  let h := ((Heap.fresh limits.memory).install context).charge chunk.utf8ByteSize
  if h.isFull then .error (.memory limits.memory)
  else match Chunk.parse chunk with
    | .error .tooDeep => .error (.raised "C stack overflow")
    | .error (.malformed message) =>
      .error (if tellsOfMemory message then .memory limits.memory else .uncompiled message)
    | .ok body =>
      let clock := clockOf limits
      let (cell, h) := h.newCell (.table Machine.globals)
      let (main, h) := h.newClosure (.script body [cell])
      match run clock (fuelFor clock) (.start main h clock) with
      | none => .error (.timeout limits.timeoutMs)
      | some (.error v, m) => .error (faultOf limits m.fired v)
      | some (.values vs, m) =>
        (Exchange.result m.heap (Machine.head vs)).mapError fun f => .unrepresentable f.message

theorem runChunk_with (limits : Limits) (chunk : String) (context : Fields Json) :
    runChunk limits chunk context = runChunkWith Machine.run limits chunk context := rfl

theorem runChunkWith_eq (run : Clock → Nat → Machine → Option (Machine.Outcome × Machine))
    {chunk : String} (hj : j.Distinct) (hparse : Chunk.parse chunk = .ok (Chunk.giving e)) :
    runChunkWith run limits chunk [(name, j)] =
      if ((context limits name j).charge chunk.utf8ByteSize).isFull then
        .error (.memory limits.memory)
      else concluded limits (run (clockOf limits) (fuelFor (clockOf limits))
        (.start (.closure 0) (loaded (context limits name j) chunk.utf8ByteSize e)
          (clockOf limits))) := by
  have hcells := cells_context limits name hj
  have hfunctions := functions_context limits name hj
  unfold runChunkWith context at *
  rw [hparse]
  generalize (Heap.fresh limits.memory).install [(name, j)] = h at hcells hfunctions ⊢
  simp only [Heap.newCell, Heap.newClosure, loaded, Heap.charge, hcells, hfunctions]
  rfl

theorem evaluate_of_lower {expr lowered : String} {context : Fields Json}
    (h : Rule.lower expr = .ok lowered) : evaluate limits expr context =
      runChunkWith Machine.run limits (Rule.returnChunk lowered) context := by
  rw [← runChunk_with, evaluate, h]

theorem concluded_eq_ok {o : Option (Machine.Outcome × Machine)}
    (h : concluded limits o = .ok r) : ∃ vs m, o = some (.values vs, m) ∧
      Exchange.result m.heap (Machine.head vs) = .ok r := by
  unfold concluded at h
  split at h
  · cases h
  · cases h
  · next vs m =>
    refine ⟨vs, m, rfl, ?_⟩
    cases hr : Exchange.result m.heap (Machine.head vs) with
    | error f => simp [hr, Except.mapError] at h
    | ok v => simpa [hr, Except.mapError] using h

def denoted (t : Table) (name : String) : Value :=
  if name = "_ENV" then .table Machine.globals else t.getKey (.str (bytes name))

/-- A rule that is a name gives what the name denotes, or nothing. -/
theorem evaluate_name (hn : Rule.IsVariable name) (hj : j.Distinct)
    (h : evaluate limits name [(name, j)] = .ok r) :
    let t := (context limits name j).table Machine.globals
    ∃ e h', Holds (Chunk.giving e) t name j h' ∧ Exchange.result h' (denoted t name) = .ok r := by
  intro t
  obtain ⟨line, hparse⟩ := Chunk.parse_name hn
  rw [evaluate_of_lower (Rule.lower_name hn), runChunkWith_eq _ hj hparse] at h
  by_cases hfull : ((context limits name j).charge
      (Rule.returnChunk name).utf8ByteSize).isFull = true
  · rw [if_pos hfull] at h
    cases h
  · rw [if_neg hfull] at h
    obtain ⟨vs, m, hrun, hresult⟩ := concluded_eq_ok h
    have hstands := stands_loaded (e := Chunk.named Chunk.outermost name line)
      (w := denoted t name) hj (clockOf limits) (Bool.eq_false_iff.2 hfull)
    have htext : t.Textual := (installed_context limits name hj).stocked.globals
    rcases hstands.run (denotes_named t name line) htext hrun with ⟨v, hv⟩ | ⟨hvs, hholds⟩
    · cases hv
    · cases hvs
      exact ⟨_, m.heap, hholds, hresult⟩

/-- Milliseconds and bytes that are enough for a rule that is a name. -/
structure Enough (limits : Limits) (name : String) (j : Json) : Prop where
  time : 1 ≤ limits.timeoutMs
  room : baseSize + Exchange.cost j + 1592 + (Rule.returnChunk name).utf8ByteSize + cellSize +
    closureSize + frameSize ≤ (Heap.fresh limits.memory).bound

/-- With time and room enough, the value of a rule that is a name is what the name denotes. -/
theorem evaluate_name_enough (hn : Rule.IsVariable name) (hj : j.Distinct)
    (henough : Enough limits name j) :
    let t := (context limits name j).table Machine.globals
    ∃ e h', Holds (Chunk.giving e) t name j h' ∧ evaluate limits name [(name, j)] =
      (Exchange.result h' (denoted t name)).mapError fun f => .unrepresentable f.message := by
  intro t
  obtain ⟨line, hparse⟩ := Chunk.parse_name hn
  have hused : (context limits name j).used ≤ baseSize + Exchange.cost j + 1592 :=
    Heap.used_install limits.memory name j hj
  have hbound : (context limits name j).bound = (Heap.fresh limits.memory).bound := by
    rw [Heap.bound, Heap.bound, (installed_context limits name hj).limit]
  have hroom := henough.room
  have hfull : ((context limits name j).charge (Rule.returnChunk name).utf8ByteSize).isFull =
      false := by
    rw [Heap.isFull, decide_eq_false_iff_not]
    show ¬ (context limits name j).bound < (context limits name j).used + _
    omega
  have hstands := stands_loaded (e := Chunk.named Chunk.outermost name line)
    (w := denoted t name) hj (clockOf limits) hfull
  have hample : Machine.Ample (clockOf limits) 14 (.start (.closure 0)
      (loaded (context limits name j) (Rule.returnChunk name).utf8ByteSize
        (Chunk.named Chunk.outermost name line)) (clockOf limits)) := by
    refine ⟨?_, ?_⟩
    · have htime := henough.time
      have hbudget : (clockOf limits).budget = min (limits.timeoutMs * ticksPerMs) maxTicks := rfl
      rw [hbudget, ticksPerMs, maxTicks]
      show 0 + 14 < _
      omega
    · show (context limits name j).used + _ + cellSize + closureSize + frameSize ≤
        (context limits name j).bound
      omega
  have hfuel : 14 < fuelFor (clockOf limits) := by
    unfold fuelFor
    omega
  obtain ⟨m, hrun, hholds⟩ := hstands.run_ample (denotes_named t name line) hample hfuel
  refine ⟨_, m.heap, hholds, ?_⟩
  rw [evaluate_of_lower (Rule.lower_name hn), runChunkWith_eq _ hj hparse, hfull, hrun]
  rfl

end Evaluate

end Rulebook.Script
