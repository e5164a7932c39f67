import Rulebook.Proofs.Seams

namespace Rulebook.Rule

variable {x y z r u v w m : List Char} {l : Lexeme} {ls : List Lexeme} {q : Char} {k : Kind}

theorem byteLength_append (x y : List Char) :
    byteLength (x ++ y) = byteLength x + byteLength y := by
  induction x with
  | nil => simp [byteLength]
  | cons c x ih => simp [byteLength, ih, Nat.add_assoc]

theorem byteLength_eq_zero : byteLength x = 0 ↔ x = [] := by
  cases x with
  | nil => simp [byteLength]
  | cons c x =>
    have := Char.utf8Size_pos c
    simp only [byteLength, reduceCtorEq, iff_false]
    omega

theorem byteLength_inj (h : u ++ x = v ++ y) (hl : byteLength u = byteLength v) : u = v := by
  rcases List.append_eq_append_iff.1 h with ⟨w, rfl, -⟩ | ⟨w, rfl, -⟩
  · rw [byteLength_append] at hl
    rw [byteLength_eq_zero.1 (show byteLength w = 0 by omega), List.append_nil]
  · rw [byteLength_append] at hl
    rw [byteLength_eq_zero.1 (show byteLength w = 0 by omega), List.append_nil]

theorem mem_place_iff {t : Token} {offset : Nat} : t ∈ place offset ls ↔
    ∃ ls₁ l ls₂, ls = ls₁ ++ l :: ls₂ ∧
      l.token? (offset + byteLength (ls₁.flatMap Lexeme.text)) = some t := by
  induction ls generalizing offset with
  | nil => simp [place]
  | cons l ls ih =>
    rw [place, List.mem_append, ih]
    constructor
    · rintro (h | ⟨ls₁, l', ls₂, rfl, h⟩)
      · exact ⟨[], l, ls, rfl, by simpa [byteLength] using h⟩
      · refine ⟨l :: ls₁, l', ls₂, rfl, ?_⟩
        rwa [List.flatMap_cons, byteLength_append, ← Nat.add_assoc]
    · rintro ⟨ls₁, l', ls₂, e, h⟩
      cases ls₁ with
      | nil =>
        cases e
        exact .inl (by simpa [byteLength] using h)
      | cons l₁ ls₁ =>
        cases e
        refine .inr ⟨ls₁, l', ls₂, rfl, ?_⟩
        rwa [List.flatMap_cons, byteLength_append, ← Nat.add_assoc] at h

theorem mem_place (hl : l ∈ ls) (hk : l.kind = some k) :
    ∃ t ∈ place 0 ls, t.kind = k ∧ t.text = String.ofList l.text := by
  obtain ⟨ls₁, ls₂, rfl⟩ := List.append_of_mem hl
  exact ⟨_, mem_place_iff.2 ⟨ls₁, l, ls₂, rfl, by rw [Lexeme.token?, hk]; rfl⟩, rfl, rfl⟩

/-- The tokenizer finds the piece between the two texts. -/
def Finds (u : List Char) (l : Lexeme) (v : List Char) : Prop :=
  ∃ ls₁ ls₂, lexemes 0 (u ++ l.text ++ v) = .ok (ls₁ ++ l :: ls₂) ∧ ls₁.flatMap Lexeme.text = u

/-- The tokenizer comes to the end of a text with another one behind. -/
def Stops (u z : List Char) : Prop := ∃ ls, Reads (u ++ z) ls z

/-- A token covers the bytes of the piece that the tokenizer finds. -/
theorem token_iff {out : String} (hout : out.toList = u ++ l.text ++ v) (hk : l.kind = some k) :
    (∃ ts, tokens out = .ok ts ∧
      ⟨k, String.ofList l.text, byteLength u, byteLength (u ++ l.text)⟩ ∈ ts) ↔ Finds u l v := by
  rw [tokens, hout]
  constructor
  · rintro ⟨ts, hts, ht⟩
    obtain ⟨ls, hls, rfl⟩ := map_eq_ok.1 hts
    obtain ⟨ls₁, l', ls₂, rfl, h⟩ := mem_place_iff.1 ht
    obtain ⟨k', hk', e⟩ := Option.map_eq_some_iff.1 h
    simp only [Nat.zero_add, Token.mk.injEq, String.ofList_inj] at e
    obtain ⟨rfl, htext, hstart, -⟩ := e
    have hl : l' = l := by
      obtain ⟨kind, text⟩ := l
      obtain ⟨kind', text'⟩ := l'
      simp_all
    have hx := (lexemes_eq_ok.1 hls).text_append
    simp only [List.append_nil, List.flatMap_append, List.append_assoc] at hx
    exact ⟨ls₁, ls₂, hl ▸ hls, byteLength_inj hx hstart⟩
  · rintro ⟨ls₁, ls₂, hls, rfl⟩
    refine ⟨_, map_eq_ok.2 ⟨_, hls, rfl⟩, mem_place_iff.2 ⟨ls₁, l, ls₂, rfl, ?_⟩⟩
    simp [Lexeme.token?, hk, byteLength_append]

theorem place_append (offset : Nat) (ls ms : List Lexeme) :
    place offset (ls ++ ms) =
      place offset ls ++ place (offset + byteLength (ls.flatMap Lexeme.text)) ms := by
  induction ls generalizing offset with
  | nil => simp [place, byteLength]
  | cons l ls ih => simp [place, ih, byteLength_append, Nat.add_assoc]

theorem place_bounds {t : Token} {offset : Nat} (h : t ∈ place offset ls) :
    offset ≤ t.start ∧ t.stop ≤ offset + byteLength (ls.flatMap Lexeme.text) := by
  obtain ⟨ls₁, l, ls₂, rfl, hl⟩ := mem_place_iff.1 h
  obtain ⟨k, -, rfl⟩ := Option.map_eq_some_iff.1 hl
  simp only [List.flatMap_append, List.flatMap_cons, byteLength_append]
  constructor <;> omega

/-- The tokens of a text are those before a piece that the tokenizer finds, its own, and those
behind it. -/
theorem Finds.tokens {out : String} (h : Finds u l v) (hout : out.toList = u ++ l.text ++ v) :
    ∃ ts us, Rule.tokens out = .ok (ts ++ (l.token? (byteLength u)).toList ++ us) ∧
      (∀ t ∈ ts, t.stop ≤ byteLength u) ∧ ∀ t ∈ us, byteLength (u ++ l.text) ≤ t.start := by
  obtain ⟨ls₁, ls₂, hls, rfl⟩ := h
  refine ⟨place 0 ls₁, place (byteLength (ls₁.flatMap Lexeme.text ++ l.text)) ls₂, ?_, ?_, ?_⟩
  · rw [Rule.tokens, hout, hls, Except.map, place_append, place]
    simp [byteLength_append]
  · intro t ht
    simpa using (place_bounds ht).2
  · intro t ht
    exact (place_bounds ht).1

/-- No token reaches into a comment that the tokenizer finds. -/
theorem Finds.dropped {out : String} (h : Finds u l v) (hout : out.toList = u ++ l.text ++ v)
    (hk : l.kind = none) : ∃ ts us, Rule.tokens out = .ok (ts ++ us) ∧
      (∀ t ∈ ts, t.stop ≤ byteLength u) ∧ ∀ t ∈ us, byteLength (u ++ l.text) ≤ t.start := by
  have := h.tokens hout
  simpa [Lexeme.token?, hk] using this

section Covering

variable {text : String} {ts : List Token} {l' : Lexeme} {i : Nat}

def Token.Covers (t : Token) (i : Nat) : Prop := t.start ≤ i ∧ i < t.stop

instance (t : Token) (i : Nat) : Decidable (t.Covers i) :=
  inferInstanceAs (Decidable (t.start ≤ i ∧ i < t.stop))

def LiesIn (text : String) (i : Nat) (l : Lexeme) : Prop :=
  ∃ ls₁ ls₂, lexemes 0 text.toList = .ok (ls₁ ++ l :: ls₂) ∧
    byteLength (ls₁.flatMap Lexeme.text) ≤ i ∧ i < byteLength (ls₁.flatMap Lexeme.text ++ l.text)

theorem LiesIn.unique (h : LiesIn text i l) (h' : LiesIn text i l') : l' = l := by
  obtain ⟨ls₁, ls₂, hls, hl, hl'⟩ := h
  obtain ⟨ms₁, ms₂, hms, hm, hm'⟩ := h'
  have he : ls₁ ++ l :: ls₂ = ms₁ ++ l' :: ms₂ := Except.ok.inj (hls.symm.trans hms)
  rcases List.append_eq_append_iff.1 he with ⟨ns, rfl, hns⟩ | ⟨ns, rfl, hns⟩
  · cases ns with
    | nil => exact (List.cons.inj hns).1.symm
    | cons n ns =>
      obtain ⟨rfl, -⟩ := List.cons.inj hns
      simp only [List.flatMap_append, List.flatMap_cons, byteLength_append] at hm hl'
      omega
  · cases ns with
    | nil => exact (List.cons.inj hns).1
    | cons n ns =>
      obtain ⟨rfl, -⟩ := List.cons.inj hns
      simp only [List.flatMap_append, List.flatMap_cons, byteLength_append] at hl hm'
      omega

theorem exists_liesIn_iff (h : LiesIn text i l) {P : Lexeme → Prop} :
    (∃ l, LiesIn text i l ∧ P l) ↔ P l := by
  constructor
  · rintro ⟨m, hm, hp⟩
    exact h.unique hm ▸ hp
  · intro hp
    exact ⟨l, h, hp⟩

/-- The tokens that cover a byte are those of the pieces in which it lies. -/
theorem exists_token_iff (hts : tokens text = .ok ts) {P : Kind → List Char → Prop} :
    (∃ t ∈ ts, t.Covers i ∧ P t.kind t.text.toList) ↔
      ∃ l, LiesIn text i l ∧ ∃ k, l.kind = some k ∧ P k l.text := by
  obtain ⟨ls, hls, rfl⟩ := map_eq_ok.1 hts
  constructor
  · rintro ⟨t, ht, hi, hp⟩
    obtain ⟨ls₁, l, ls₂, rfl, h⟩ := mem_place_iff.1 ht
    obtain ⟨k, hk, rfl⟩ := Option.map_eq_some_iff.1 h
    rw [Token.Covers, Nat.zero_add, ← byteLength_append] at hi
    rw [String.toList_ofList] at hp
    exact ⟨l, ⟨ls₁, ls₂, hls, hi⟩, k, hk, hp⟩
  · rintro ⟨l, ⟨ls₁, ls₂, hls', hi⟩, k, hk, hp⟩
    obtain rfl := Except.ok.inj (hls.symm.trans hls')
    refine ⟨_, mem_place_iff.2 ⟨ls₁, l, ls₂, rfl, by rw [Lexeme.token?, hk]; rfl⟩, ?_, ?_⟩
    · rw [Token.Covers, Nat.zero_add, ← byteLength_append]
      exact hi
    · rwa [String.toList_ofList]

theorem exists_piece {c : Char} (h : ls.flatMap Lexeme.text = x ++ c :: z) :
    ∃ ls₁ l ls₂ w w', ls = ls₁ ++ l :: ls₂ ∧ x = ls₁.flatMap Lexeme.text ++ w ∧
      l.text = w ++ c :: w' ∧ z = w' ++ ls₂.flatMap Lexeme.text := by
  induction ls generalizing x with
  | nil => simp at h
  | cons l ls ih =>
    have hbehind {y : List Char} (hx : x = l.text ++ y)
        (hy : ls.flatMap Lexeme.text = y ++ c :: z) : ∃ ls₁ l' ls₂ w w',
        l :: ls = ls₁ ++ l' :: ls₂ ∧ x = ls₁.flatMap Lexeme.text ++ w ∧
          l'.text = w ++ c :: w' ∧ z = w' ++ ls₂.flatMap Lexeme.text := by
      obtain ⟨ls₁, l', ls₂, w, w', rfl, rfl, hw, hz⟩ := ih hy
      exact ⟨l :: ls₁, l', ls₂, w, w', rfl, by simp [hx], hw, hz⟩
    rw [List.flatMap_cons] at h
    rcases List.append_eq_append_iff.1 h with ⟨y, hx, hy⟩ | ⟨y, hl, hy⟩
    · exact hbehind hx hy
    · cases y with
      | nil => exact hbehind (y := []) (by simpa using hl.symm) hy.symm
      | cons d y =>
        obtain ⟨rfl, rfl⟩ := List.cons.inj hy
        exact ⟨[], l, ls, x, y, rfl, rfl, hl, rfl⟩

end Covering

theorem stops_head {c : Char} (hc : c ≠ '=') (y z : List Char) :
    Stops u (c :: y) ↔ Stops u (c :: z) := by
  have key (y z : List Char) : Stops u (c :: y) → Stops u (c :: z) := by
    rintro ⟨ls, h⟩
    have hu : ls.flatMap Lexeme.text = u := List.append_cancel_right h.text_append
    have hl : ∀ n, level? (c :: z) = some n → level? (c :: y) = some n := by
      intro n hn
      rw [level?_cons, if_neg hc] at hn ⊢
      exact hn
    have := h.follow (z := c :: z) (.of_head rfl) hl (by simp)
    rw [hu] at this
    exact ⟨ls, this⟩
  exact ⟨key y z, key z y⟩

theorem stops_congr {c : Char} (hc : c ≠ '=' ∧ c ≠ '[') (y z : List Char) :
    Stops u (c :: y) ↔ Stops u (c :: z) :=
  stops_head hc.1 y z

theorem finds_iff :
    Finds u l v ↔ Stops u (l.text ++ v) ∧ Piece (l.text ++ v) l v ∧ ∃ ls, lexemes 0 v = .ok ls := by
  constructor
  · rintro ⟨ls₁, ls₂, hls, rfl⟩
    obtain ⟨y, h₁, h₂⟩ := reads_append.1 (lexemes_eq_ok.1 hls)
    have hy : y = l.text ++ v := by
      have := h₁.text_append
      rw [List.append_assoc] at this
      exact List.append_cancel_left this
    subst hy
    cases h₂ with
    | @step _ r _ _ _ hp hr =>
      have hv : r = v := List.append_cancel_left hp.text_append
      subst hv
      rw [List.append_assoc] at h₁
      exact ⟨⟨ls₁, h₁⟩, hp, ls₂, lexemes_eq_ok.2 hr⟩
  · rintro ⟨⟨ls₁, h₁⟩, hp, ls₂, h₂⟩
    refine ⟨ls₁, ls₂, lexemes_eq_ok.2 (reads_append.2 ⟨l.text ++ v, ?_, ?_⟩), ?_⟩
    · rwa [List.append_assoc]
    · exact .step hp (lexemes_eq_ok.1 h₂)
    · exact List.append_cancel_right h₁.text_append

theorem piece_quoted_iff (hq : isQuote q = true) :
    Piece (q :: (w ++ [q]) ++ v) ⟨some .str, q :: (w ++ [q])⟩ v ↔
      inside q false w = some false := by
  constructor
  · intro h
    generalize hx : q :: (w ++ [q]) ++ v = x at h
    generalize hl : (⟨some .str, q :: (w ++ [q])⟩ : Lexeme) = l at h
    cases h with
    | @quoted q' x t r hq' h =>
      cases hl
      obtain ⟨u, hu, -, hin⟩ := (quoted_eq_some hq).1 h
      obtain rfl : w = u := List.append_cancel_right hu
      exact hin
    | @bracket n x t r h =>
      rw [opener_append] at hl
      obtain ⟨rfl, -⟩ : q = '[' ∧ _ := by simpa using hl
      exact absurd hq (by decide)
    | blank | longComment | lineComment | name | number | punct => simp at hl
  · intro h
    refine .quoted hq ((quoted_eq_some hq).2 ⟨w, rfl, by simp, h⟩)

theorem piece_comment_iff :
    Piece ('-' :: '-' :: x) l v ↔ comment x = .ok (l, v) := by
  constructor
  · intro h
    obtain ⟨c, y, e, hl⟩ := h.lexeme_eq
    cases e
    rwa [lexeme_comment] at hl
  · exact Piece.of_comment

end Rulebook.Rule
