import Rulebook.Proofs.HolePositions

namespace Rulebook.Template

variable {b : Bindings} {x y a u v : List Char} {ss : List Segment}

structure Spot where
  name : String
  /-- the index of its opening brace -/
  start : Nat
deriving DecidableEq, Repr

namespace Spot

def stop (s : Spot) : Nat := s.start + (Segment.hole s.name).text.length

def position (x : List Char) (s : Spot) : Position :=
  (scan (.code, 0) (x.take s.start) (x.drop s.start)).1

def fill (b : Bindings) (x : List Char) (s : Spot) : Except Fault (List Char) :=
  (Part.hole s.name (s.position x)).fill b

end Spot

def spotsFrom (i : Nat) : List Segment → List Spot
  | [] => []
  | .char _ :: ss => spotsFrom (i + 1) ss
  | .hole name :: ss => ⟨name, i⟩ :: spotsFrom (i + (Segment.hole name).text.length) ss

def spots (x : List Char) : List Spot := spotsFrom 0 (segments x)

/-- A text from an index on, with other texts in the place of its placeholders. -/
def replaced (x : List Char) (i : Nat) : List (Spot × List Char) → List Char
  | [] => x.drop i
  | (s, w) :: rest => x.extract i s.start ++ w ++ replaced x s.stop rest

theorem names_spotsFrom (i : Nat) (ss : List Segment) :
    (spotsFrom i ss).map Spot.name = ss.filterMap Segment.name? := by
  induction ss generalizing i with
  | nil => rfl
  | cons t ss ih =>
    cases t with
    | char c => exact ih (i + 1)
    | hole n => exact congrArg (n :: ·) (ih _)

theorem le_start {i : Nat} {s : Spot} (h : s ∈ spotsFrom i ss) : i ≤ s.start := by
  induction ss generalizing i with
  | nil => cases h
  | cons t ss ih =>
    cases t with
    | char c =>
      have := ih h
      omega
    | hole n =>
      rcases List.mem_cons.1 h with rfl | h
      · exact le_rfl
      · have := ih h
        omega

theorem spotsFrom_pairwise (i : Nat) (ss : List Segment) :
    (spotsFrom i ss).Pairwise fun s t => s.stop ≤ t.start := by
  induction ss generalizing i with
  | nil => exact .nil
  | cons t ss ih =>
    cases t with
    | char c => exact ih (i + 1)
    | hole n => exact .cons (fun s hs => le_start hs) (ih _)

theorem extract_spot {s : Spot} (h : s ∈ spotsFrom a.length ss) :
    (a ++ ss.flatMap Segment.text).extract s.start s.stop = (Segment.hole s.name).text := by
  induction ss generalizing a with
  | nil => cases h
  | cons t ss ih =>
    have hbehind (h : s ∈ spotsFrom (a ++ t.text).length ss) :
        (a ++ (t :: ss).flatMap Segment.text).extract s.start s.stop =
          (Segment.hole s.name).text := by
      simpa using ih h
    cases t with
    | char c => exact hbehind (by simpa [spotsFrom, Segment.text] using h)
    | hole n =>
      rcases List.mem_cons.1 h with rfl | h
      · simp [Spot.stop, List.extract_eq_take_drop]
      · exact hbehind (by simpa using h)

def filledFrom (b : Bindings) (x : List Char) (i : Nat) (ts : List Spot) :
    Except Fault (List Char) :=
  (ts.mapM (Spot.fill b x)).map fun ws => replaced x i (ts.zip ws)

theorem filledFrom_cons (i : Nat) (s : Spot) (ts : List Spot) :
    filledFrom b x i (s :: ts) = s.fill b x >>= fun w =>
      (filledFrom b x s.stop ts).map fun r => x.extract i s.start ++ w ++ r := by
  rw [filledFrom, filledFrom, List.mapM_cons]
  cases s.fill b x with
  | error e => rfl
  | ok w => cases ts.mapM (Spot.fill b x) <;> rfl

theorem scan_past_hole {n : String} (hn : IsName n) (a y : List Char) :
    scan (.code, 0) (a ++ (Segment.hole n).text) y =
      ((scan (.code, 0) a ((Segment.hole n).text ++ y)).1, 0) := by
  have hdue : Due (scan (.code, 0) a ((Segment.hole n).text ++ y))
      ((Segment.hole n).text ++ y) := due_scan (due_code _)
  rw [scan_append]
  exact scan_hole hn (by simpa [Segment.text] using hdue)

theorem image_eq_filledFrom (hx : x = a ++ y) {i : Nat} (hi : i ≤ a.length) :
    (image b (scan (.code, 0) a y) y []).map (fun w => a.drop i ++ w) =
      filledFrom b x i (spotsFrom a.length (segments y)) := by
  -- the kept text from `i` on grows by each character until a placeholder comes
  induction y using segments_induction generalizing a i with
  | nil =>
    subst hx
    simp [image, segments, marks, spotsFrom, filledFrom, replaced, pure, Except.pure, Except.map]
  | char c y hs _ ih =>
    have hrest := ih (a := a ++ [c]) (i := i) (by simp [hx]) (by simp; omega)
    have hscan : scan (.code, 0) (a ++ [c]) y = advance y c (scan (.code, 0) a (c :: y)) := by
      rw [scan_append]
      rfl
    rw [hscan, List.length_append, List.length_singleton] at hrest
    rw [hs, spotsFrom, ← hrest, image, image, hs, marks, List.mapM_cons, Part.fill, ok_bind,
      segments_text, List.append_nil]
    cases (marks [] _ (segments y)).mapM (Part.fill b) with
    | error e => rfl
    | ok ws => exact congrArg Except.ok (by simp [List.drop_append_of_le_length hi])
  | hole n y hn hh ih =>
    have htext : (Segment.hole n).text ++ y = '\x7b' :: (n.toList ++ '\x7d' :: y) := by
      simp [Segment.text]
    rw [← htext] at hx ⊢
    have hrest := ih (a := a ++ (Segment.hole n).text) (i := (a ++ (Segment.hole n).text).length)
      (by simp [hx]) le_rfl
    rw [scan_past_hole hn, List.drop_length, List.length_append] at hrest
    have hfill : Spot.fill b x ⟨n, a.length⟩ =
        (Part.hole n (scan (.code, 0) a ((Segment.hole n).text ++ y)).1).fill b := by
      simp [Spot.fill, Spot.position, hx]
    have hkept : x.extract i a.length = a.drop i := by
      rw [hx, List.extract_eq_take_drop, List.drop_append_of_le_length hi,
        List.take_left' List.length_drop]
    have hsegments : segments ((Segment.hole n).text ++ y) = .hole n :: segments y := by
      rw [htext, segments_hole hh]
    rw [hsegments, spotsFrom, filledFrom_cons, hfill, hkept, Spot.stop, ← hrest, image, image,
      hsegments, marks, List.mapM_cons]
    cases (Part.hole n _).fill b with
    | error e => rfl
    | ok w =>
      cases (marks [] _ (segments y)).mapM (Part.fill b) with
      | error e => rfl
      | ok ws => exact congrArg Except.ok (by simp)

theorem substituteRule_eq_filledFrom (text : String) (b : Bindings) :
    substituteRule text b = (filledFrom b text.toList 0 (spots text.toList)).map String.ofList := by
  have h : (image b (.code, 0) text.toList []).map (fun w => [] ++ w) =
      filledFrom b text.toList 0 (spots text.toList) :=
    image_eq_filledFrom (a := []) (List.nil_append text.toList).symm (Nat.zero_le 0)
  rw [← h, substituteRule, parts, annotate_eq_marks, image]
  cases (marks [] _ _).mapM (Part.fill b) with
  | error e => rfl
  | ok ws => exact congrArg Except.ok (by simp)

section Skips

variable {p : Position} {k : Nat} {c q : Char}

theorem segments_append_of_not_mem (hu : '\x7b' ∉ u) (v : List Char) :
    segments (u ++ v) = u.map .char ++ segments v := by
  induction u with
  | nil => rfl
  | cons c u ih =>
    rw [List.mem_cons, not_or] at hu
    rw [List.cons_append, segments_char (Ne.symm hu.1), ih hu.2]
    rfl

theorem spotsFrom_chars (i : Nat) (u : List Char) (ss : List Segment) :
    spotsFrom i (u.map .char ++ ss) = spotsFrom (i + u.length) ss := by
  induction u generalizing i with
  | nil => rfl
  | cons c u ih =>
    rw [List.map_cons, List.cons_append, spotsFrom, ih, List.length_cons]
    congr 1
    omega

theorem next_eq_escape (h : p.next y c = (.quoted q, 1)) : p = .quoted q ∧ c = '\\' := by
  cases p with
  | code =>
    simp only [Position.next] at h
    split at h
    · cases h
    · split at h
      · split at h <;> cases h
      · split at h <;> cases h
  | quoted q' =>
    simp only [Position.next] at h
    split at h
    · next hc =>
      cases h
      exact ⟨rfl, hc⟩
    · split at h <;> cases h
  | longBracket k =>
    simp only [Position.next] at h
    split at h <;> cases h
  | lineComment =>
    simp only [Position.next] at h
    split at h <;> cases h

theorem exists_skipped (h : Due (p, k) y) (hy : ∀ n ss, segments y ≠ .hole n :: ss) :
    ∃ u v, y = u ++ v ∧ segments y = u.map .char ++ segments v ∧
      (u.length = k ∨ v = [] ∧ u.length ≤ k) := by
  by_cases hmem : '\x7b' ∈ y.take k
  · obtain ⟨q, hq⟩ := h.ahead hmem
    cases hq
    cases y with
    | nil => cases hmem
    | cons c y =>
      obtain rfl : '\x7b' = c := by simpa using hmem
      refine ⟨['\x7b'], y, rfl, ?_, .inl rfl⟩
      cases hh : hole? y with
      | none => rw [segments_brace hh]; rfl
      | some r => exact absurd (segments_hole hh) (hy _ _)
  · refine ⟨y.take k, y.drop k, (List.take_append_drop k y).symm, ?_, ?_⟩
    · rw [← segments_append_of_not_mem hmem, List.take_append_drop]
    · rw [List.length_take]
      rcases Nat.le_total k y.length with hk | hk
      · exact .inl (Nat.min_eq_left hk)
      · exact .inr ⟨List.drop_of_length_le hk, Nat.min_le_left _ _⟩

end Skips

structure Filling where
  position : Position
  /-- the placeholders that it has not come to -/
  pending : List Spot
  out : List Char
  /-- the text in front of this index is dealt with in `out` -/
  copied : Nat
  index : Nat
deriving DecidableEq, Repr

namespace Filling

variable {w w' : Filling} {c : Char}

def start (x : List Char) : Filling := ⟨.code, spots x, [], 0, 0⟩

def due? (w : Filling) : Option Spot := w.pending.head?.filter fun s => s.start = w.index

/-- How many characters are taken with `c`. A backslash takes none with it that begins the next
placeholder. -/
def taken (w : Filling) (c : Char) (k : Nat) : Nat :=
  match w.position with
  | .quoted _ => if c = '\\' ∧ w.pending.head?.map Spot.start = some (w.index + 1) then 0 else k
  | _ => k

def move (c : Char) (y : List Char) (w : Filling) : Filling :=
  let (p, k) := w.position.next y c
  { w with position := p, index := w.index + 1 + w.taken c k }

def step (b : Bindings) (x : List Char) (c : Char) (y : List Char) (w : Filling) :
    Except Fault Filling :=
  match w.due? with
  | some s => ((Part.hole s.name w.position).fill b).map fun v =>
    { w with
      pending := w.pending.tail, out := w.out ++ x.extract w.copied w.index ++ v
      copied := s.stop, index := s.stop }
  | none => .ok (w.move c y)

theorem due?_eq_some {s : Spot} :
    w.due? = some s ↔ s.start = w.index ∧ ∃ ts, w.pending = s :: ts := by
  rw [due?, Option.filter_eq_some_iff, List.head?_eq_some_iff, decide_eq_true_eq]
  exact and_comm

theorem step_progress (h : w.step b x c y = .ok w') : w.index < w'.index := by
  unfold step at h
  split at h
  · next s hs =>
    obtain ⟨v, -, rfl⟩ := map_eq_ok.1 h
    obtain ⟨hstart, -⟩ := due?_eq_some.1 hs
    simp only [Spot.stop, Segment.text, List.length_cons]
    omega
  · cases h
    simp only [move]
    omega

def run (b : Bindings) (x : List Char) (w : Filling) : Except Fault Filling :=
  if hi : w.index < x.length then
    match h : w.step b x x[w.index] (x.drop (w.index + 1)) with
    | .error e => .error e
    | .ok w' => run b x w'
  else .ok w
termination_by x.length - w.index
decreasing_by
  have := step_progress h
  omega

structure Stands (x : List Char) (w : Filling) (a y : List Char) : Prop where
  text : x = a ++ y
  index : w.index = a.length ∨ y = [] ∧ a.length ≤ w.index
  pending : w.pending = spotsFrom a.length (segments y)
  /-- The scanner stands there too, unless it goes on over the brace of a placeholder. -/
  position : y ≠ [] → ∃ k, scan (.code, 0) a y = (w.position, k) ∧
    ∀ c ss, segments y = .char c :: ss → k = 0
  copied : w.copied ≤ a.length

theorem start_stands (x : List Char) : (start x).Stands x [] x :=
  ⟨rfl, .inl rfl, rfl, fun _ => ⟨0, rfl, fun _ _ _ => rfl⟩, le_rfl⟩

def outcome (b : Bindings) (x : List Char) (w : Filling) : Except Fault (List Char) :=
  (filledFrom b x w.copied w.pending).map fun r => w.out ++ r

theorem hole_text_append_ne_nil (n : String) (y : List Char) :
    (Segment.hole n).text ++ y ≠ [] := by
  simp [Segment.text]

theorem step_of_hole {n : String} (hs : segments ((Segment.hole n).text ++ y) = .hole n :: ss)
    (h : w.Stands x a ((Segment.hole n).text ++ y)) (hi : w.index = a.length) (d : Char)
    (z : List Char) : w.step b x d z = (Spot.fill b x ⟨n, a.length⟩).map fun v =>
      ⟨w.position, spotsFrom (a ++ (Segment.hole n).text).length ss,
        w.out ++ x.extract w.copied w.index ++ v, (a ++ (Segment.hole n).text).length,
        (a ++ (Segment.hole n).text).length⟩ := by
  obtain ⟨k, hscan, -⟩ := h.position (hole_text_append_ne_nil n y)
  have hpending := h.pending
  rw [hs, spotsFrom, ← List.length_append] at hpending
  have hdue : w.due? = some ⟨n, a.length⟩ := due?_eq_some.2 ⟨hi.symm, _, hpending⟩
  have hposition : Spot.position x ⟨n, a.length⟩ = w.position := by
    simp [Spot.position, h.text, hscan]
  rw [step, hdue, Spot.fill, hposition, hpending]
  simp [Spot.stop]

theorem stands_behind_hole {n : String} (hn : IsName n)
    (h : w.Stands x a ((Segment.hole n).text ++ y)) (o : List Char) : Stands x
      ⟨w.position, spotsFrom (a ++ (Segment.hole n).text).length (segments y), o,
        (a ++ (Segment.hole n).text).length, (a ++ (Segment.hole n).text).length⟩
      (a ++ (Segment.hole n).text) y := by
  obtain ⟨k, hscan, -⟩ := h.position (hole_text_append_ne_nil n y)
  refine ⟨by simp [h.text], .inl rfl, rfl, fun _ => ⟨0, ?_, fun _ _ _ => rfl⟩, le_rfl⟩
  rw [scan_past_hole hn, hscan]

theorem not_due_of_char (hs : segments (c :: y) = .char c :: segments y)
    (h : w.Stands x a (c :: y)) (hi : w.index = a.length) : w.due? = none := by
  refine Option.eq_none_iff_forall_ne_some.2 fun s hdue => ?_
  obtain ⟨hstart, ts, hts⟩ := due?_eq_some.1 hdue
  have hpending := h.pending
  rw [hs, spotsFrom, hts] at hpending
  have := le_start (hpending ▸ List.mem_cons_self)
  omega

theorem taken_eq_zero {p : Position} {k : Nat} {n : String} (hnext : w.position.next y c = (p, k))
    (hdue : Due (p, k) y) (hs : segments y = .hole n :: ss)
    (hpending : w.pending = spotsFrom (w.index + 1) (segments y)) : w.taken c k = 0 := by
  by_cases hk : k = 0
  · unfold taken
    split
    · rw [hk, ite_self]
    · exact hk
  · have hbrace : '\x7b' ∈ y.take k := by
      obtain ⟨y', rfl⟩ : ∃ y', y = '\x7b' :: y' := by
        have := segments_text y
        rw [hs] at this
        exact ⟨_, this.symm⟩
      obtain ⟨k, rfl⟩ := Nat.exists_eq_succ_of_ne_zero hk
      exact List.mem_cons_self
    obtain ⟨q, hq⟩ := hdue.ahead hbrace
    obtain ⟨hw, rfl⟩ := next_eq_escape (hnext.trans hq)
    rw [hs, spotsFrom] at hpending
    simp [taken, hw, hpending]

theorem taken_eq_self {k : Nat} (hs : ∀ n ss, segments y ≠ .hole n :: ss)
    (hpending : w.pending = spotsFrom (w.index + 1) (segments y)) : w.taken c k = k := by
  have hstart : w.pending.head?.map Spot.start ≠ some (w.index + 1) := by
    rw [hpending]
    cases hy : segments y with
    | nil => nofun
    | cons t ss =>
      cases t with
      | hole n => exact absurd hy (hs n ss)
      | char d =>
        intro h
        obtain ⟨s, hhead, hstart⟩ := Option.map_eq_some_iff.1 h
        have hmem : s ∈ spotsFrom (w.index + 1 + 1) ss := List.mem_of_mem_head? hhead
        have := le_start hmem
        omega
  unfold taken
  split
  · rw [if_neg (fun h => hstart h.2)]
  · rfl

theorem stands_of_char (hs : segments (c :: y) = .char c :: segments y)
    (h : w.Stands x a (c :: y)) (hi : w.index = a.length) :
    ∃ a' y', (w.move c y).Stands x a' y' := by
  obtain ⟨k, hscan, hk⟩ := h.position (List.cons_ne_nil _ _)
  obtain rfl := hk _ _ hs
  have hpending := h.pending
  rw [hs, spotsFrom, ← hi] at hpending
  have hdue : Due (w.position.next y c) y :=
    due_advance (hscan ▸ due_scan (due_code _) : Due (w.position, 0) (c :: y))
  have hafter : scan (.code, 0) (a ++ [c]) y = w.position.next y c := by
    rw [scan_append, List.singleton_append, hscan]
    rfl
  cases hnext : w.position.next y c with
  | mk p k =>
  have hmove : w.move c y = ⟨p, w.pending, w.out, w.copied, w.index + 1 + w.taken c k⟩ := by
    rw [move, hnext]
  rw [hnext] at hdue hafter
  have hcopied := h.copied
  by_cases hhole : ∃ n ss, segments y = .hole n :: ss
  · obtain ⟨n, ss, hn⟩ := hhole
    rw [hmove, taken_eq_zero hnext hdue hn hpending]
    refine ⟨a ++ [c], y, by simp [h.text], .inl (by simp [hi]), by simp [hpending, hi],
      fun _ => ⟨k, hafter, fun d ts hd => ?_⟩, ?_⟩
    · rw [hn] at hd
      cases hd
    · simp only [List.length_append, List.length_singleton]
      omega
  · have hhole : ∀ n ss, segments y ≠ .hole n :: ss := fun n ss hn => hhole ⟨n, ss, hn⟩
    rw [hmove, taken_eq_self hhole hpending]
    obtain ⟨u, v, rfl, huv, hlen⟩ := exists_skipped hdue hhole
    refine ⟨a ++ c :: u, v, by simp [h.text], ?_, ?_, fun hv => ⟨0, ?_, fun _ _ _ => rfl⟩, ?_⟩
    · rcases hlen with rfl | ⟨rfl, hle⟩
      · exact .inl (by simp [hi]; omega)
      · exact .inr ⟨rfl, by simp [hi]; omega⟩
    · rw [huv, spotsFrom_chars] at hpending
      simp only [hpending, hi, List.length_append, List.length_cons]
      congr 1
      omega
    · obtain rfl : u.length = k := hlen.resolve_right fun h => hv h.1
      rw [show a ++ c :: u = a ++ [c] ++ u by simp, scan_append, hafter, scan_skip]
    · simp only [List.length_append, List.length_cons]
      omega

theorem move_outcome (c : Char) (y : List Char) (w : Filling) :
    (w.move c y).outcome b x = w.outcome b x := rfl

/-- A step changes nothing of what the rule becomes. -/
theorem step_outcome (h : w.Stands x a y) (hi : w.index < x.length) :
    (∀ e, w.step b x x[w.index] (x.drop (w.index + 1)) = .error e → w.outcome b x = .error e) ∧
      ∀ w', w.step b x x[w.index] (x.drop (w.index + 1)) = .ok w' →
        w'.outcome b x = w.outcome b x ∧ ∃ a' y', w'.Stands x a' y' := by
  have hindex : w.index = a.length := by
    refine h.index.resolve_right fun hy => ?_
    rw [h.text, hy.1, List.append_nil] at hi
    omega
  have htext := h.text
  -- by what stands in front of the loop: the end, a placeholder or a character
  induction y using segments_induction with
  | nil =>
    rw [htext, List.append_nil] at hi
    omega
  | hole n y hn hh _ =>
    have hy : '\x7b' :: (n.toList ++ '\x7d' :: y) = (Segment.hole n).text ++ y := by
      simp [Segment.text]
    have hs := segments_hole hh
    rw [hy] at h hs
    rw [step_of_hole hs h hindex]
    have hpending := h.pending
    rw [hs, spotsFrom, ← List.length_append] at hpending
    constructor
    · intro e he
      rw [map_eq_error] at he
      rw [outcome, hpending, filledFrom_cons, he]
      rfl
    · intro w' hw'
      obtain ⟨v, hv, rfl⟩ := map_eq_ok.1 hw'
      refine ⟨?_, _, _, stands_behind_hole hn h _⟩
      have hstop : Spot.stop ⟨n, a.length⟩ = (a ++ (Segment.hole n).text).length := by
        rw [Spot.stop, List.length_append]
      rw [outcome, outcome, hpending, filledFrom_cons, hv, hindex, ok_bind, hstop]
      cases filledFrom b x _ _ with
      | error e => rfl
      | ok r => exact congrArg Except.ok (by simp)
  | char c y hs _ _ =>
    have hc : x[w.index] = c := by simp [htext, hindex]
    have hbehind : x.drop (w.index + 1) = y := by simp [htext, hindex, List.drop_append]
    rw [hc, hbehind, step, not_due_of_char hs h hindex]
    constructor
    · intro e he
      cases he
    · intro w' hw'
      obtain rfl : w.move c y = w' := Except.ok.inj hw'
      exact ⟨move_outcome c y w, stands_of_char hs h hindex⟩

theorem pending_eq_nil (h : w.Stands x a y) (hi : x.length ≤ w.index) : w.pending = [] := by
  have hy : y = [] := by
    rcases h.index with hindex | hy
    · rw [h.text, List.length_append, hindex] at hi
      exact List.length_eq_zero_iff.1 (by omega)
    · exact hy.1
  rw [h.pending, hy, segments]
  rfl

/-- The loop comes to every placeholder, and the rule becomes what it becomes. -/
theorem run_outcome (h : w.Stands x a y) :
    (w.run b x).map (fun w => (w.pending, w.out ++ x.drop w.copied)) =
      (w.outcome b x).map fun out => ([], out) := by
  fun_induction run b x w generalizing a y with
  | case1 w hi e he =>
    rw [(step_outcome h hi).1 e he]
    rfl
  | case2 w hi w' hw' ih =>
    obtain ⟨hout, a', y', h'⟩ := (step_outcome h hi).2 w' hw'
    rw [ih h', hout]
  | case3 w hi =>
    have hpending := pending_eq_nil h (Nat.le_of_not_lt hi)
    rw [outcome, hpending]
    show Except.ok (w.pending, w.out ++ x.drop w.copied) = .ok ([], w.out ++ x.drop w.copied)
    rw [hpending]

theorem start_outcome (b : Bindings) (x : List Char) :
    (start x).outcome b x = filledFrom b x 0 (spots x) := by
  show (filledFrom b x 0 (spots x)).map (fun r => [] ++ r) = _
  cases filledFrom b x 0 (spots x) <;> rfl

end Filling

/-- A rule becomes its text with what is written for each placeholder, at the position of the
placeholder, in its place. If nothing can be written for a placeholder, it fails as the first of
these. The loop over the rule does the same, and no placeholder is left when it ends. -/
theorem substituteRule_replaces (text : String) (b : Bindings) :
    ((spots text.toList).map Spot.name = placeholders text ∧
        (spots text.toList).Pairwise (fun s t => s.stop ≤ t.start) ∧
        ∀ s ∈ spots text.toList,
          text.toList.extract s.start s.stop = (Segment.hole s.name).text) ∧
      ((∃ out, substituteRule text b = .ok out) ↔
        ∀ s ∈ spots text.toList, ∃ w, s.fill b text.toList = .ok w) ∧
      (∀ out, substituteRule text b = .ok out ↔
        ∃ ws, List.Forall₂ (fun s w => s.fill b text.toList = .ok w) (spots text.toList) ws ∧
          out.toList = replaced text.toList 0 ((spots text.toList).zip ws)) ∧
      (∀ e, substituteRule text b = .error e ↔
        ∃ ss s ts, spots text.toList = ss ++ s :: ts ∧
          (∀ t ∈ ss, ∃ w, t.fill b text.toList = .ok w) ∧ s.fill b text.toList = .error e) ∧
      ((Filling.start text.toList).run b text.toList).map
          (fun w => (w.pending, w.out ++ text.toList.drop w.copied)) =
        (substituteRule text b).map fun out => ([], out.toList) := by
  rw [substituteRule_eq_filledFrom]
  refine ⟨⟨names_spotsFrom 0 _, spotsFrom_pairwise 0 _, fun s hs => ?_⟩, ?_, fun out => ?_,
    fun e => ?_, ?_⟩
  · have := extract_spot (a := []) hs
    rwa [List.nil_append, segments_text] at this
  · simp only [filledFrom, map_eq_ok]
    constructor
    · rintro ⟨_, _, ⟨ws, hws, -⟩, -⟩ s hs
      obtain ⟨w, -, hw⟩ := forall₂_mem (mapM_eq_ok.1 hws) hs
      exact ⟨w, hw⟩
    · intro h
      obtain ⟨ws, hws⟩ := exists_mapM_eq_ok h
      exact ⟨_, _, ⟨ws, hws, rfl⟩, rfl⟩
  · simp only [filledFrom, map_eq_ok, mapM_eq_ok]
    constructor
    · rintro ⟨_, ⟨ws, hws, rfl⟩, rfl⟩
      exact ⟨ws, hws, String.toList_ofList⟩
    · rintro ⟨ws, hws, hout⟩
      exact ⟨_, ⟨ws, hws, rfl⟩, by rw [← hout, String.ofList_toList]⟩
  · rw [map_eq_error, filledFrom, map_eq_error, mapM_eq_error]
  · rw [Filling.run_outcome (Filling.start_stands text.toList), Filling.start_outcome]
    cases filledFrom b text.toList 0 _ with
    | error e => rfl
    | ok out => exact congrArg Except.ok (by simp)

def greeting : String := "name ~= '\x7bwho\x7d' and level > \x7bn\x7d"

theorem substituteRule_replaces_greeting :
    spots greeting.toList = [⟨"who", 9⟩, ⟨"n", 28⟩] ∧
    substituteRule greeting [("n", .int 3), ("who", .str "O'Hara")] =
      .ok "name ~= 'O\\'Hara' and level > 3" ∧
    substituteRule greeting [("who", .str "O'Hara")] = .error (.unresolved "n") := by
  have hspots : spots greeting.toList = [⟨"who", 9⟩, ⟨"n", 28⟩] := by decide +kernel
  refine ⟨hspots, ?_, ?_⟩
  · obtain ⟨-, -, hok, -⟩ :=
      substituteRule_replaces greeting [("n", .int 3), ("who", .str "O'Hara")]
    refine (hok _).2 ⟨["O\\'Hara".toList, ['3']], ?_, ?_⟩
    · rw [hspots]
      exact .cons (by cbv) (.cons (by cbv) .nil)
    · rw [hspots]
      decide
  · obtain ⟨-, -, -, herror, -⟩ := substituteRule_replaces greeting [("who", .str "O'Hara")]
    refine (herror _).2 ⟨[⟨"who", 9⟩], ⟨"n", 28⟩, [], hspots, ?_, by cbv⟩
    rintro t (_ | ⟨_, ⟨⟩⟩)
    exact ⟨"O\\'Hara".toList, by cbv⟩

end Rulebook.Template
