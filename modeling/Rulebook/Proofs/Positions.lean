import Rulebook.Proofs.Placeholders
import Rulebook.Proofs.Seams

namespace Rulebook.Template

variable {c d q : Char} {x y z r u v w : List Char} {n : String} {p : Position}

/-- A position, and how many characters the scanner takes there without a look at them. -/
abbrev Stand := Position × Nat

def advance (after : List Char) (c : Char) : Stand → Stand
  | (p, k + 1) => (p, k)
  | (p, 0) => p.next after c

def scan (s : Stand) : List Char → List Char → Stand
  | [], _ => s
  | c :: x, z => scan (advance (x ++ z) c s) x z

variable {s : Stand}

theorem scan_append (x y z : List Char) :
    scan s (x ++ y) z = scan (scan s x (y ++ z)) y z := by
  induction x generalizing s with
  | nil => rfl
  | cons c x ih => rw [List.cons_append, scan, ih, scan, List.append_assoc]

def marks (z : List Char) : Stand → List Segment → List Part
  | _, [] => []
  | s, .hole name :: ss => .hole name s.1 :: marks z (s.1, 0) ss
  | s, .char c :: ss => .text c :: marks z (advance (ss.flatMap Segment.text ++ z) c s) ss

theorem level?_append_of_head (hz : ∀ d ∈ z.head?, d ≠ '=' ∧ d ≠ '[') (x : List Char) :
    Rule.level? (x ++ z) = Rule.level? x := by
  induction x with
  | nil =>
    cases z with
    | nil => rfl
    | cons d z =>
      obtain ⟨h₁, h₂⟩ := hz d rfl
      rw [List.nil_append, Rule.level?_cons, if_neg h₁, if_neg h₂]
      rfl
  | cons c x ih => rw [List.cons_append, Rule.level?_cons, Rule.level?_cons, ih]

theorem bracket?_eq : bracket? = Rule.bracket? := by
  funext x
  cases x with
  | nil => rfl
  | cons c x => by_cases hc : c = '[' <;> simp [bracket?, Rule.bracket?, hc]

theorem bracket?_append_of_head (hz : ∀ d ∈ z.head?, d ≠ '=' ∧ d ≠ '[') (x : List Char) :
    bracket? (x ++ z) = bracket? x := by
  cases x with
  | nil =>
    cases z with
    | nil => rfl
    | cons d z => simp [bracket?, (hz d rfl).2]
  | cons c x =>
    by_cases hc : c = '['
    · simpa [bracket?, hc] using level?_append_of_head hz x
    · simp [bracket?, hc]

theorem mem_closer {k : Nat} (h : d ∈ Rule.closer k) : d = ']' ∨ d = '=' := by
  simp only [Rule.closer, List.cons_append, List.mem_cons, List.mem_append, List.mem_replicate,
    List.not_mem_nil, or_false] at h
  rcases h with h | ⟨-, h⟩ | h
  · exact .inl h
  · exact .inr h
  · exact .inl h

theorem isPrefixOf_append_of_head {l : List Char} (hz : ∀ d ∈ z.head?, d ∉ l) (x : List Char) :
    l.isPrefixOf (x ++ z) = l.isPrefixOf x := by
  induction l generalizing x with
  | nil => simp
  | cons e l ih =>
    cases x with
    | nil =>
      cases z with
      | nil => rfl
      | cons d z =>
        have := hz d rfl
        simp only [List.mem_cons, not_or] at this
        simp [List.isPrefixOf, Ne.symm this.1]
    | cons c x =>
      have := ih (fun d hd hm => hz d hd (List.mem_cons_of_mem _ hm)) x
      simp [List.isPrefixOf, this]

theorem next_append (hz : ∀ d ∈ z.head?, d ∉ ['-', '[', '=', ']']) (x : List Char) :
    p.next (x ++ z) c = p.next x c := by
  have hb : ∀ d ∈ z.head?, d ≠ '=' ∧ d ≠ '[' := by
    intro d hd
    have := hz d hd
    simp only [List.mem_cons, not_or] at this
    exact ⟨this.2.2.1, this.2.1⟩
  have hc (k : Nat) : ∀ d ∈ z.head?, d ∉ Rule.closer k := by
    intro d hd hm
    have := hz d hd
    rcases mem_closer hm with rfl | rfl <;> simp at this
  have hd : (x ++ z).head? = some '-' ↔ x.head? = some '-' := by
    cases x with
    | nil =>
      cases z with
      | nil => rfl
      | cons d z =>
        have := hz d rfl
        simp_all
    | cons => rfl
  cases p with
  | code =>
    have hbr := bracket?_append_of_head hb (c :: x)
    simp only [List.cons_append] at hbr
    simp only [Position.next, hd, hbr]
    by_cases hx : x.head? = some '-'
    · obtain ⟨y, rfl⟩ := List.head?_eq_some_iff.1 hx
      simp [bracket?_append_of_head hb]
    · simp [hx]
  | quoted q => rfl
  | longBracket k =>
    have := isPrefixOf_append_of_head (hc k) (c :: x)
    simp only [List.cons_append] at this
    simp [Position.next, this]
  | lineComment => rfl

theorem next_lead (p : Position) (c : Char) (ss : List Segment) :
    p.next (lead ss) c = p.next (ss.flatMap Segment.text) c := by
  have : ∃ z, ss.flatMap Segment.text = lead ss ++ z ∧ ∀ d ∈ z.head?, d = '\x7b' := by
    induction ss with
    | nil => exact ⟨[], rfl, by simp⟩
    | cons t ss ih =>
      cases t with
      | char c =>
        obtain ⟨z, h, hz⟩ := ih
        exact ⟨z, by simp [lead, Segment.text, h], hz⟩
      | hole n => exact ⟨_, rfl, by rintro d ⟨⟩; rfl⟩
  obtain ⟨z, h, hz⟩ := this
  rw [h, next_append]
  intro d hd
  rw [hz d hd]
  decide

theorem annotate_eq_marks (p : Position) (k : Nat) (ss : List Segment) :
    annotate p k ss = marks [] (p, k) ss := by
  induction ss generalizing p k with
  | nil => rfl
  | cons t ss ih =>
    cases t with
    | hole n => rw [annotate, marks, ih]
    | char c =>
      cases k with
      | zero =>
        rw [annotate, marks, List.append_nil, next_lead]
        simp only [ih]
        rfl
      | succ k => rw [annotate, marks, ih]; rfl

/-- What the scanner takes without a look is no placeholder, but behind a backslash. -/
structure Due (s : Stand) (x : List Char) : Prop where
  quote : ∀ q, s.1 = .quoted q → q = '\'' ∨ q = '"'
  ahead : '\x7b' ∈ x.take s.2 → ∃ q, s = (.quoted q, 1)

theorem due_code (x : List Char) : Due (.code, 0) x := ⟨by simp, by simp⟩

theorem not_mem_opener {k : Nat} : '\x7b' ∉ Rule.opener k := by
  simp [Rule.opener]

theorem not_mem_take {k : Nat} (h : bracket? x = some k) : '\x7b' ∉ x.take (k + 2) := by
  rw [bracket?_eq] at h
  obtain ⟨y, rfl⟩ := Rule.bracket?_eq_some.1 h
  rw [List.take_left' (by simp [Rule.opener])]
  exact not_mem_opener

theorem due_next_code (c : Char) (x : List Char) : Due (Position.code.next x c) x := by
  simp only [Position.next]
  split
  · next hc => exact ⟨by rintro q ⟨⟩; simpa using hc, by simp⟩
  split
  · next hc =>
    simp only [Bool.and_eq_true, decide_eq_true_eq, List.head?_eq_some_iff] at hc
    obtain ⟨-, y, rfl⟩ := hc
    split
    · next k hk =>
      have := not_mem_take hk
      exact ⟨by simp, fun hm => absurd hm (by simpa using this)⟩
    · exact ⟨by simp, fun hm => absurd hm (by simp)⟩
  split
  · next k hk =>
    have := not_mem_take hk
    simp only [List.take_succ_cons, List.mem_cons, not_or] at this
    exact ⟨by simp, fun hm => absurd hm this.2⟩
  · exact due_code x

theorem due_next (h : ∀ q, p = .quoted q → q = '\'' ∨ q = '"') (c : Char) (x : List Char) :
    Due (p.next x c) x := by
  cases p with
  | code => exact due_next_code c x
  | quoted q =>
    simp only [Position.next]
    split
    · exact ⟨fun _ hq => h _ hq, fun _ => ⟨q, rfl⟩⟩
    · split
      · exact due_code x
      · exact ⟨fun _ hq => h _ hq, by simp⟩
  | longBracket k =>
    simp only [Position.next]
    split
    · next hc =>
      refine ⟨by simp, fun hm => absurd hm ?_⟩
      obtain ⟨y, hy⟩ := List.isPrefixOf_iff_prefix.1 hc
      have hx : (List.replicate k '=' ++ [']']) ++ y = x := (List.cons.inj hy).2
      rw [← hx, List.take_left' (by simp)]
      simp
    · exact ⟨by simp, by simp⟩
  | lineComment =>
    simp only [Position.next]
    split
    · exact due_code x
    · exact ⟨by simp, by simp⟩

theorem due_advance (h : Due s (c :: x)) : Due (advance x c s) x := by
  obtain ⟨p, k⟩ := s
  cases k with
  | zero => exact due_next h.quote c x
  | succ k =>
    refine ⟨h.quote, fun hm => ?_⟩
    obtain ⟨q, hq⟩ := h.ahead (List.mem_cons_of_mem _ hm)
    cases hq
    cases hm

theorem due_scan (h : Due s (x ++ z)) : Due (scan s x z) z := by
  induction x generalizing s with
  | nil => exact h
  | cons c x ih => exact ih (due_advance h)

def isIdle (c : Char) : Bool := c ∉ ['\'', '"', '-', '[', ']', '\\', '\n']

theorem next_idle (h : ∀ q, p = .quoted q → q = '\'' ∨ q = '"') (hc : isIdle c = true)
    (x : List Char) : p.next x c = (p, 0) := by
  simp only [isIdle, List.mem_cons, not_or, decide_eq_true_eq, List.not_mem_nil,
    not_false_eq_true, and_true] at hc
  cases p with
  | code => simp_all [Position.next, bracket?]
  | quoted q => rcases h q rfl with rfl | rfl <;> simp_all [Position.next]
  | longBracket k =>
    have : (Rule.closer k).isPrefixOf (c :: x) = false := by
      simp [Rule.closer, List.isPrefixOf, Ne.symm hc.2.2.2.2.1]
    simp [Position.next, this]
  | lineComment => simp_all [Position.next]

theorem scan_idle (h : ∀ q, p = .quoted q → q = '\'' ∨ q = '"') (hx : ∀ c ∈ x, isIdle c = true)
    (z : List Char) : scan (p, 0) x z = (p, 0) := by
  induction x with
  | nil => rfl
  | cons c x ih =>
    rw [scan, advance, next_idle h (hx c List.mem_cons_self),
      ih fun d hd => hx d (List.mem_cons_of_mem _ hd)]

theorem isIdle_of_isIdentRest (h : Text.isIdentRest c = true) : isIdle c = true := by
  simp only [isIdle, decide_eq_true_eq]
  intro hc
  have hall : ∀ d ∈ ['\'', '"', '-', '[', ']', '\\', '\n'], (!Text.isIdentRest d) = true :=
    List.all_eq_true.1 rfl
  have := hall c hc
  rw [h] at this
  cases this

theorem IsName.isIdle (h : IsName n) : ∀ c ∈ n.toList ++ ['\x7d'], isIdle c = true := by
  intro c hc
  rcases List.mem_append.1 hc with hc | hc
  · exact isIdle_of_isIdentRest (h.rest c hc)
  · obtain rfl := List.mem_singleton.1 hc
    decide

theorem scan_hole (hn : IsName n) (h : Due s ('\x7b' :: (n.toList ++ '\x7d' :: r))) :
    scan s ('\x7b' :: (n.toList ++ ['\x7d'])) r = (s.1, 0) := by
  obtain ⟨p, k⟩ := s
  have hidle := scan_idle h.quote hn.isIdle r
  cases k with
  | zero =>
    rw [scan, advance, next_idle h.quote (by decide)]
    exact hidle
  | succ k =>
    obtain ⟨q, hq⟩ := h.ahead List.mem_cons_self
    cases hq
    exact hidle

theorem marks_append (h : Due s (x ++ z)) (ss : List Segment)
    (hz : z = ss.flatMap Segment.text ++ y) :
    marks y s (segments x ++ ss) = marks z s (segments x) ++ marks y (scan s x z) ss := by
  induction x using segments_induction generalizing s with
  | nil => simp [segments, scan, marks]
  | hole n r hn hs ih =>
    have hd : Due s ('\x7b' :: (n.toList ++ '\x7d' :: (r ++ z))) := by simpa using h
    have hscan : scan s ('\x7b' :: (n.toList ++ '\x7d' :: r)) z = scan (s.1, 0) r z := by
      have hx : '\x7b' :: (n.toList ++ '\x7d' :: r) = ('\x7b' :: (n.toList ++ ['\x7d'])) ++ r := by
        simp
      rw [hx, scan_append, scan_hole hn hd]
    have hr : Due (s.1, 0) (r ++ z) := ⟨h.quote, by simp⟩
    rw [segments_hole hs, List.cons_append, marks, marks, ih hr, hscan, List.cons_append]
  | char c x hs _ ih =>
    have hd : Due s (c :: (x ++ z)) := h
    have ht : (segments x ++ ss).flatMap Segment.text ++ y = x ++ z := by
      rw [List.flatMap_append, segments_text, List.append_assoc, hz]
    rw [hs, List.cons_append, marks, marks, ht, segments_text, ih (due_advance hd), scan,
      List.cons_append]

/-- What a part of a rule becomes, with the scanner standing in front of it and a text behind. -/
def image (b : Bindings) (s : Stand) (x z : List Char) : Except Fault (List Char) :=
  ((marks z s (segments x)).mapM (Part.fill b)).map List.flatten

variable {b : Bindings}

theorem image_append (hc : Cuts x y) (h : Due s (x ++ (y ++ z))) :
    image b s (x ++ y) z = .ok w ↔ ∃ u v, image b s x (y ++ z) = .ok u ∧
      image b (scan s x (y ++ z)) y z = .ok v ∧ w = u ++ v := by
  have hm := marks_append (y := z) h (segments y) (by rw [segments_text])
  unfold Cuts at hc
  simp only [image, hc, hm, List.mapM_append, map_eq_ok, bind_eq_ok, pure, Except.pure,
    Except.ok.injEq]
  constructor
  · rintro ⟨_, ⟨us, hu, vs, hv, rfl⟩, rfl⟩
    exact ⟨_, _, ⟨us, hu, rfl⟩, ⟨vs, hv, rfl⟩, List.flatten_append⟩
  · rintro ⟨_, _, ⟨us, hu, rfl⟩, ⟨vs, hv, rfl⟩, rfl⟩
    exact ⟨_, ⟨us, hu, vs, hv, rfl⟩, List.flatten_append⟩

/-- A text without placeholders stays as it is. -/
theorem image_holeless (hx : Holeless x) (s : Stand) (z : List Char) : image b s x z = .ok x := by
  rw [image, map_eq_ok]
  induction x using segments_induction generalizing s with
  | nil => exact ⟨[], by simp [segments, marks, pure, Except.pure], rfl⟩
  | hole n r _ h ih =>
    refine absurd ?_ (hx n)
    rw [segments_hole h]
    exact List.mem_cons_self
  | char c x h _ ih =>
    have hx' : Holeless x := fun n hm => hx n (by rw [h]; exact List.mem_cons_of_mem _ hm)
    obtain ⟨ws, hws, hflat⟩ := ih hx' (advance ((segments x).flatMap Segment.text ++ z) c s)
    refine ⟨[c] :: ws, ?_, by simp [hflat]⟩
    simp [h, marks, Part.fill, hws, pure, Except.pure, bind, Except.bind]

theorem image_plain (hx : '\x7b' ∉ x) (s : Stand) (z : List Char) : image b s x z = .ok x :=
  image_holeless (holeless_of_not_mem hx) s z

theorem substituteRule_eq_ok {text out : String} :
    substituteRule text b = .ok out ↔ image b (.code, 0) text.toList [] = .ok out.toList := by
  rw [substituteRule, parts, annotate_eq_marks, image, map_eq_ok, map_eq_ok]
  constructor
  · rintro ⟨ws, h, rfl⟩
    exact ⟨ws, h, by simp⟩
  · rintro ⟨ws, h, e⟩
    exact ⟨ws, h, by rw [e, String.ofList_toList]⟩

/-- Between two texts of a rule a third one becomes `w`. -/
def Becomes (b : Bindings) (a x z w : List Char) : Prop :=
  image b (scan (.code, 0) a (x ++ z)) x z = .ok w

variable {a : List Char}

theorem becomes_append (hc : Cuts x y) : Becomes b a (x ++ y) z w ↔
    ∃ u v, Becomes b a x (y ++ z) u ∧ Becomes b (a ++ x) y z v ∧ w = u ++ v := by
  have hd : Due (scan (.code, 0) a (x ++ (y ++ z))) (x ++ (y ++ z)) := due_scan (due_code _)
  unfold Becomes
  rw [List.append_assoc, image_append hc hd, scan_append]

theorem becomes_plain (hx : '\x7b' ∉ x) : Becomes b a x z w ↔ w = x := by
  rw [Becomes, image_plain hx]
  simp [eq_comm]

theorem marks_neutral (hz : ∀ d ∈ z.head?, d ∉ ['-', '[', '=', ']']) (s : Stand)
    (ss : List Segment) : marks z s ss = marks [] s ss := by
  induction ss generalizing s with
  | nil => rfl
  | cons t ss ih =>
    cases t with
    | hole n => rw [marks, marks, ih]
    | char c =>
      obtain ⟨p, k⟩ := s
      have : advance (ss.flatMap Segment.text ++ z) c (p, k) =
          advance (ss.flatMap Segment.text ++ []) c (p, k) := by
        cases k with
        | zero => rw [advance, advance, next_append hz, List.append_nil]
        | succ k => rfl
      rw [marks, marks, this, ih]

/-- The beginning of a rule becomes what it becomes as a rule of its own, unless what follows goes
on with a comment or a bracket. -/
theorem becomes_beginning (hz : ∀ d ∈ z.head?, d ∉ ['-', '[', '=', ']']) : Becomes b [] x z w ↔
    substituteRule (String.ofList x) b = .ok (String.ofList w) := by
  rw [substituteRule_eq_ok, Becomes, image, image, marks_neutral hz, String.toList_ofList,
    String.toList_ofList]
  rfl

/-- Where the scanner stands in code, what follows is a rule of its own. -/
theorem becomes_end (h : scan (.code, 0) a z = (.code, 0)) : Becomes b a z [] w ↔
    substituteRule (String.ofList z) b = .ok (String.ofList w) := by
  rw [substituteRule_eq_ok, Becomes, List.append_nil, h, String.toList_ofList,
    String.toList_ofList]

theorem becomes_rule {text out : String} :
    substituteRule text b = .ok out ↔ Becomes b [] text.toList [] out.toList :=
  substituteRule_eq_ok

end Rulebook.Template
