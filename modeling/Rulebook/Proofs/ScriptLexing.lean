import Rulebook.Script.Token
import Rulebook.Proofs.Except

namespace Rulebook.Script.Token

variable {c q : Char} {x y r cs : List Char} {fuel line : Nat} {ts us : List Located}

abbrev Step := Except ChunkFault (Option Token × List Char × Nat)

def stepComment (r : List Char) (line : Nat) : Step :=
  match r with
  | '[' :: s =>
    if (level? s).isSome then
      match longText? s line with
      | some (_, r, line) => .ok (none, r, line)
      | none => malformed "unfinished long comment" "<eof>"
    else .ok (none, r.dropWhile (!isBreak ·), line)
  | r => .ok (none, r.dropWhile (!isBreak ·), line)

def stepBracket (r : List Char) (line : Nat) : Step :=
  if (level? r).isSome then
    match longText? r line with
    | some (t, r, line) => .ok (some (str (bytes (String.ofList t))), r, line)
    | none => malformed "unfinished long string" "<eof>"
  else if r.head? = some '=' then malformed "invalid long string delimiter" "[="
  else .ok (some (sign "["), r, line)

def stepSign (c : Char) (r : List Char) (line : Nat) : Step :=
  match sign? (c :: r) with
  | some s => .ok (some (sign (String.ofList s)), (c :: r).drop s.length, line)
  | none => .ok (some (sign (String.singleton c)), r, line)

def word (w : List Char) : Token :=
  if String.ofList w ∈ reserved then sign (String.ofList w) else name (String.ofList w)

def step (c : Char) (r : List Char) (line : Nat) : Step :=
  if isBreak c then .ok (none, dropBreak (c :: r), line + 1)
  else if Number.isSpace c then .ok (none, r, line)
  else if Text.isIdentStart c then
    .ok (some (word (c :: r.takeWhile Text.isIdentRest)), r.dropWhile Text.isIdentRest, line)
  else if c.isDigit || (c = '.' && (r.head?.any Char.isDigit)) then
    (readNumber (c :: r)).map fun (n, r) => (some (number n), r, line)
  else if c = '"' || c = '\'' then
    (quoted (r.length + 1) c r [] line).map fun (t, r, line) =>
      (some (str ⟨t.reverse.toArray⟩), r, line)
  else match c, r with
    | '-', '-' :: r => stepComment r line
    | '[', r => stepBracket r line
    | c, r => stepSign c r line

def located (t : Option Token) (line : Nat) : List Located := (t.map (⟨·, line⟩)).toList

theorem scan_succ (fuel : Nat) (c : Char) (r : List Char) (line : Nat) (acc : List Located) :
    scan (fuel + 1) (c :: r) line acc =
      step c r line >>= fun (t, r, line) => scan fuel r line (located t line ++ acc) := by
  rw [scan.eq_def, step.eq_def]
  simp only
  split
  · rfl
  split
  · rfl
  split
  · rfl
  split
  · cases readNumber (c :: r) <;> rfl
  split
  · cases quoted (r.length + 1) c r [] line <;> rfl
  by_cases hdash : c = '-' ∧ r.head? = some '-'
  · obtain ⟨rfl, hr⟩ := hdash
    obtain ⟨r, rfl⟩ := List.head?_eq_some_iff.1 hr
    simp only [stepComment]
    by_cases hb : ∃ s, r = '[' :: s
    · obtain ⟨s, rfl⟩ := hb
      simp only
      by_cases hl : (level? s).isSome = true
      · rw [if_pos hl, if_pos hl]
        cases longText? s line <;> rfl
      · rw [if_neg hl, if_neg hl]
        rfl
    · have hs : ∀ s, r = '[' :: s → False := fun s h => hb ⟨s, h⟩
      simp [ok_bind, located]
  by_cases hc : c = '['
  · subst hc
    simp only [stepBracket]
    by_cases hl : (level? r).isSome = true
    · rw [if_pos hl, if_pos hl]
      cases longText? r line <;> rfl
    · rw [if_neg hl, if_neg hl]
      by_cases hh : r.head? = some '='
      · rw [if_pos hh, if_pos hh]
        rfl
      · rw [if_neg hh, if_neg hh]
        rfl
  · have hd : ∀ s, c = '-' → r = '-' :: s → False := by
      rintro s rfl rfl
      exact hdash ⟨rfl, rfl⟩
    simp only [stepSign]
    cases hs : sign? (c :: r) <;> simp [ok_bind, located]

theorem dropBreak_length (c : Char) (r : List Char) :
    (dropBreak (c :: r)).length ≤ r.length := by
  unfold dropBreak
  split <;> simp_all

theorem long_length {level : Nat} {acc t : List Char} {line' : Nat}
    (h : long fuel level cs acc line = some (t, r, line')) : r.length ≤ cs.length := by
  fun_induction long fuel level cs acc line with
  | case1 => cases h
  | case2 => cases h
  | case3 =>
    cases h
    simp
    omega
  | case4 acc line fuel c x hc hb ih =>
    have := ih h
    have := dropBreak_length c x
    simp only [List.length_cons]
    omega
  | case5 acc line fuel c x hc hb ih =>
    have := ih h
    simp only [List.length_cons]
    omega

theorem long_line {level : Nat} {acc t : List Char} {line' : Nat}
    (h : long fuel level cs acc line = some (t, r, line')) (other : Nat) :
    ∃ other', long fuel level cs acc other = some (t, r, other') := by
  fun_induction long fuel level cs acc line generalizing other with
  | case1 => cases h
  | case2 => cases h
  | case3 acc line fuel c x hc =>
    cases h
    exact ⟨other, by simp [long, hc]⟩
  | case4 acc line fuel c x hc hb ih =>
    obtain ⟨other', ho⟩ := ih h (other + 1)
    exact ⟨other', by simp [long, hc, hb, ho]⟩
  | case5 acc line fuel c x hc hb ih =>
    obtain ⟨other', ho⟩ := ih h other
    exact ⟨other', by simp [long, hc, hb, ho]⟩

def escape : List Char → Except ChunkFault (List UInt8 × List Char × Nat)
  | [] => malformed "unfinished string" "<eof>"
  | 'x' :: r =>
    match r with
    | a :: b :: r =>
      match Number.hexDigit? a, Number.hexDigit? b with
      | some m, some n => .ok ([UInt8.ofNat (16 * m + n)], r, 0)
      | _, _ => malformed "hexadecimal digit expected" "\\x"
    | _ => malformed "hexadecimal digit expected" "\\x"
  | 'z' :: r =>
    let blanks := r.takeWhile Number.isSpace
    .ok ([], r.dropWhile Number.isSpace,
      (blanks.filter (· = '\n')).length + (blanks.filter (· = '\r')).length)
  | 'u' :: '\x7b' :: r =>
    let ds := r.takeWhile Number.isHexDigit
    let n := Number.hexValue (ds.take 16)
    if ds.isEmpty then malformed "hexadecimal digit expected" "\\u"
    else if 0x80000000 ≤ n || 16 < ds.length && 0x80000000 ≤ Number.hexValue ds then
      malformed "UTF-8 value too large" "\\u"
    else match r.dropWhile Number.isHexDigit with
      | '\x7d' :: r => .ok ((codeBytes n).reverse, r, 0)
      | _ => malformed "missing closing brace" "\\u"
  | 'u' :: _ => malformed "missing opening brace" "\\u"
  | c :: r =>
    if isBreak c then .ok ([10], dropBreak (c :: r), 1)
    else if c.isDigit then
      let (n, r) := decimalEscape (c :: r)
      if n < 256 then .ok ([UInt8.ofNat n], r, 0) else malformed "decimal escape too large" "\\"
    else match simpleEscape? c with
      | some b => .ok ([b], r, 0)
      | none => malformed "invalid escape sequence" "\\"

theorem quoted_escape (fuel : Nat) (q : Char) (cs : List Char) (acc : List UInt8) (line : Nat) :
    quoted (fuel + 1) q ('\\' :: cs) acc line =
      escape cs >>= fun (b, r, n) => quoted fuel q r (b ++ acc) (line + n) := by
  fun_cases escape cs with
  | case8 r ds n hds hn r' hr =>
    unfold ds at hds
    unfold n ds at hn
    simp only [quoted]
    rw [if_neg hds, if_neg hn, hr]
    rfl
  | case9 r ds n hds hn hr =>
    unfold ds at hds
    unfold n ds at hn
    simp only [quoted]
    rw [if_neg hds, if_neg hn]
    rfl
  | _ => simp_all +zetaDelta [quoted, malformed, bind, Except.bind]

theorem quoted_plain (fuel : Nat) (q c : Char) (hc : c ≠ '\\') (cs : List Char) (acc : List UInt8)
    (line : Nat) : quoted (fuel + 1) q (c :: cs) acc line =
      if c = q then .ok (acc, cs, line)
      else if isBreak c then malformed "unfinished string" (readable ⟨acc.reverse.toArray⟩)
      else quoted fuel q cs ((utf8 c).reverse ++ acc) line := by
  rw [quoted]
  exact hc

def Soft (c : Char) : Prop := c ≠ '\\' ∧ c ≠ '"' ∧ c ≠ '\''

theorem soft_of_class {p : Char → Bool} (hp : p '\\' = false ∧ p '"' = false ∧ p '\'' = false)
    (h : p c = true) : Soft c := by
  refine ⟨?_, ?_, ?_⟩ <;> rintro rfl <;> simp_all

theorem soft_of_hexDigit {n : Nat} (h : Number.hexDigit? c = some n) : Soft c :=
  soft_of_class (p := Number.isHexDigit) (by decide) (by simp [Number.isHexDigit, h])

theorem dropBreak_eq (c : Char) (r : List Char) :
    ∃ u, r = u ++ dropBreak (c :: r) ∧ ∀ d ∈ u, isBreak d = true := by
  unfold dropBreak
  split
  · next h =>
    cases h
    exact ⟨['\n'], rfl, by simp [isBreak]⟩
  · next h =>
    cases h
    exact ⟨['\r'], rfl, by simp [isBreak]⟩
  · next h =>
    cases h
    exact ⟨[], rfl, by simp⟩
  · next h => cases h

theorem soft_of_isBreak (h : isBreak c = true) : Soft c := soft_of_class (by decide) h

theorem takeWhile_class (p : Char → Bool) (x : List Char) : ∀ d ∈ x.takeWhile p, p d = true :=
  List.all_eq_true.1 List.all_takeWhile

theorem decimalEscape_eq (c : Char) (x : List Char) (hc : c.isDigit = true) :
    ∃ u, x = u ++ (decimalEscape (c :: x)).2 ∧ ∀ d ∈ u, d.isDigit = true := by
  have hp : (c :: (x.take 2).takeWhile Char.isDigit) <+: c :: x :=
    List.cons_prefix_cons.2 ⟨rfl, (List.takeWhile_prefix _).trans (List.take_prefix 2 x)⟩
  refine ⟨(x.take 2).takeWhile Char.isDigit, ?_, takeWhile_class _ _⟩
  have he := List.prefix_iff_eq_append.1 hp
  simpa [decimalEscape, hc] using he.symm

/-- What an escape takes: one character, and others that neither end a literal nor begin an
escape. -/
theorem escape_eq_ok {b : List UInt8} {n : Nat} (h : escape cs = .ok (b, r, n)) :
    ∃ c u, cs = c :: u ++ r ∧ ∀ d ∈ u, Soft d := by
  revert h
  fun_cases escape cs with
  | case2 a b x m n hb ha =>
    intro h
    cases h
    refine ⟨'x', [a, b], rfl, ?_⟩
    simp [soft_of_hexDigit ha, soft_of_hexDigit hb]
  | case5 x blanks =>
    intro h
    cases h
    refine ⟨'z', x.takeWhile Number.isSpace, by simp, ?_⟩
    intro d hd
    exact soft_of_class (by decide) (takeWhile_class _ _ d hd)
  | case8 x ds n hd hn y hx =>
    intro h
    cases h
    refine ⟨'u', '\x7b' :: x.takeWhile Number.isHexDigit ++ ['\x7d'], ?_, ?_⟩
    · have := List.takeWhile_append_dropWhile (p := Number.isHexDigit) (l := x)
      rw [hx] at this
      simp [this]
    · intro d hd
      simp only [List.cons_append, List.mem_cons, List.mem_append, List.not_mem_nil,
        or_false] at hd
      rcases hd with rfl | hd | rfl
      · simp [Soft]
      · exact soft_of_class (by decide) (takeWhile_class _ _ d hd)
      · simp [Soft]
  | case11 c x _ _ _ _ hc =>
    intro h
    cases h
    obtain ⟨u, hu, hb⟩ := dropBreak_eq c x
    exact ⟨c, u, congrArg _ hu, fun d hd => soft_of_isBreak (hb d hd)⟩
  | case12 c x hx hz hu' hu hb hc n y hy hn =>
    intro h
    cases h
    obtain ⟨u, hu, hb⟩ := decimalEscape_eq c x hc
    rw [hy] at hu
    exact ⟨c, u, congrArg _ hu, fun d hd => soft_of_class (by decide) (hb d hd)⟩
  | case14 =>
    intro h
    cases h
    exact ⟨_, [], rfl, by simp⟩
  | _ => intro h; cases h

theorem quoted_length {acc t : List UInt8} {line' : Nat}
    (h : quoted fuel q cs acc line = .ok (t, r, line')) : r.length ≤ cs.length := by
  induction fuel generalizing cs acc line with
  | zero => cases h
  | succ fuel ih =>
    match cs with
    | [] => cases h
    | c :: cs =>
      by_cases hc : c = '\\'
      · subst hc
        rw [quoted_escape, bind_eq_ok] at h
        obtain ⟨⟨b, y, n⟩, he, h⟩ := h
        obtain ⟨c, u, rfl, -⟩ := escape_eq_ok he
        have := ih h
        simp only [List.length_cons, List.length_append]
        omega
      · rw [quoted_plain fuel q c hc] at h
        split at h
        · cases h
          simp
        · split at h
          · cases h
          · have := ih h
            simp only [List.length_cons]
            omega

theorem quoted_line {acc t : List UInt8} {line' : Nat}
    (h : quoted fuel q cs acc line = .ok (t, r, line')) (other : Nat) :
    ∃ other', quoted fuel q cs acc other = .ok (t, r, other') := by
  induction fuel generalizing cs acc line other with
  | zero => cases h
  | succ fuel ih =>
    match cs with
    | [] => cases h
    | c :: cs =>
      by_cases hc : c = '\\'
      · subst hc
        rw [quoted_escape, bind_eq_ok] at h
        obtain ⟨⟨b, y, n⟩, he, h⟩ := h
        obtain ⟨other', ho⟩ := ih h (other + n)
        exact ⟨other', by rw [quoted_escape, he]; exact ho⟩
      · rw [quoted_plain fuel q c hc] at h ⊢
        split at h
        · next hq =>
          cases h
          exact ⟨other, by rw [if_pos hq]⟩
        · next hq =>
          split at h
          · cases h
          · next hb =>
            obtain ⟨other', ho⟩ := ih h other
            exact ⟨other', by rw [if_neg hq, if_neg hb, ho]⟩

theorem numeral_append (hex : Bool) (cs : List Char) :
    (numeral hex cs).1 ++ (numeral hex cs).2 = cs := by
  fun_induction numeral hex cs <;> simp_all

theorem readNumber_eq_ok {n : Number} (h : readNumber cs = .ok (n, r)) :
    (numeral (isHex cs) (cs.drop (if isHex cs then 2 else 1))).2 = r ∧
      ∀ d ∈ r.head?, Text.isIdentStart d = false := by
  simp only [readNumber] at h
  split at h
  · next ht =>
    cases h
    refine ⟨rfl, ?_⟩
    intro d hd
    split at ht
    · next he =>
      rw [he] at hd
      cases hd
      exact ht
    · next he =>
      rw [he] at hd
      cases hd
  · cases h

theorem readNumber_length {n : Number} (h : readNumber (c :: cs) = .ok (n, r)) :
    r.length ≤ cs.length := by
  obtain ⟨rfl, -⟩ := readNumber_eq_ok h
  have := congrArg List.length (numeral_append (isHex (c :: cs))
    ((c :: cs).drop (if isHex (c :: cs) then 2 else 1)))
  have hlead : 1 ≤ if isHex (c :: cs) then 2 else 1 := by split <;> omega
  simp only [List.length_append, List.length_drop, List.length_cons] at this
  omega

def skipBreak : List Char → List Char × Nat
  | c :: r => if isBreak c then (dropBreak (c :: r), 1) else (c :: r, 0)
  | [] => ([], 0)

theorem skipBreak_eq (x : List Char) :
    ∃ u, x = u ++ (skipBreak x).1 ∧ ∀ d ∈ u, isBreak d = true := by
  cases x with
  | nil => exact ⟨[], rfl, by simp⟩
  | cons c x =>
    by_cases hc : isBreak c = true
    · obtain ⟨u, hu, hb⟩ := dropBreak_eq c x
      refine ⟨c :: u, ?_, ?_⟩
      · simp only [skipBreak, if_pos hc]
        exact congrArg _ hu
      · intro d hd
        rcases List.mem_cons.1 hd with rfl | hd
        · exact hc
        · exact hb d hd
    · exact ⟨[], by simp only [skipBreak, if_neg hc]; rfl, by simp⟩

theorem longText?_eq_some {t : List Char} {line' : Nat} :
    longText? cs line = some (t, r, line') ↔ ∃ n, level? cs = some n ∧
      long ((skipBreak (cs.drop (n + 1))).1.length + 1) n (skipBreak (cs.drop (n + 1))).1 []
        (line + (skipBreak (cs.drop (n + 1))).2) = some (t.reverse, r, line') := by
  have hmap (x : Option (List Char × List Char × Nat)) :
      (∃ a, x = some a ∧ (a.1.reverse, a.2.1, a.2.2) = (t, r, line')) ↔
        x = some (t.reverse, r, line') := by
    constructor
    · rintro ⟨⟨acc, y, l⟩, rfl, e⟩
      cases e
      simp
    · rintro rfl
      exact ⟨_, rfl, by simp⟩
  simp only [longText?, Option.bind_eq_some_iff, Option.map_eq_some_iff]
  refine exists_congr fun n => and_congr_right fun _ => ?_
  cases cs.drop (n + 1) with
  | nil => exact hmap _
  | cons c body =>
    by_cases hc : isBreak c = true
    · simp only [skipBreak, if_pos hc]
      exact hmap _
    · simp only [skipBreak, if_neg hc]
      exact hmap _

theorem longText?_length {t : List Char} {line' : Nat}
    (h : longText? cs line = some (t, r, line')) : r.length ≤ cs.length := by
  obtain ⟨n, -, hl⟩ := longText?_eq_some.1 h
  obtain ⟨u, hu, -⟩ := skipBreak_eq (cs.drop (n + 1))
  have := long_length hl
  have := congrArg List.length hu
  simp only [List.length_drop, List.length_append] at this
  omega

theorem longText?_line {t : List Char} {line' : Nat} (h : longText? cs line = some (t, r, line'))
    (other : Nat) : ∃ other', longText? cs other = some (t, r, other') := by
  obtain ⟨n, hn, hl⟩ := longText?_eq_some.1 h
  obtain ⟨other', ho⟩ := long_line hl (other + (skipBreak (cs.drop (n + 1))).2)
  exact ⟨other', longText?_eq_some.2 ⟨n, hn, ho⟩⟩

/-- A step that leaves no more than `size` characters, and the same whatever the line is. It is not
the end. -/
structure Stable (read : Nat → Step) (size : Nat) : Prop where
  length {line : Nat} {t : Option Token} {y : List Char} {line' : Nat} :
    read line = .ok (t, y, line') → y.length ≤ size
  ne_finish {line : Nat} {t : Option Token} {y : List Char} {line' : Nat} :
    read line = .ok (t, y, line') → t ≠ some finish
  other {line : Nat} {t : Option Token} {y : List Char} {line' : Nat} (other : Nat) :
    read line = .ok (t, y, line') → ∃ other', read other = .ok (t, y, other')

theorem stable_ok {t : Option Token} {size : Nat} (lines : Nat) (h : y.length ≤ size)
    (ht : t ≠ some finish) : Stable (fun line => .ok (t, y, line + lines)) size := by
  refine ⟨?_, ?_, ?_⟩
  · intro line t y line' e
    cases e
    exact h
  · intro line t y line' e
    cases e
    exact ht
  · intro line t y line' other e
    cases e
    exact ⟨other + lines, rfl⟩

theorem stable_error (f : ChunkFault) (size : Nat) : Stable (fun _ => .error f) size := by
  constructor <;> (intros; contradiction)

theorem stable_longText {f : List Char → Option Token} {g : ChunkFault} {size : Nat}
    (h : r.length ≤ size) (hf : ∀ t, f t ≠ some finish) :
    Stable (fun line => match longText? r line with
      | some (t, r, line) => .ok (f t, r, line)
      | none => .error g) size := by
  have hinv {line : Nat} {t : Option Token} {y : List Char} {line' : Nat}
      (e : (match longText? r line with
        | some (t, r, line) => Except.ok (f t, r, line)
        | none => .error g) = .ok (t, y, line')) :
      ∃ u, longText? r line = some (u, y, line') ∧ t = f u := by
    split at e
    · next hl =>
      cases e
      exact ⟨_, hl, rfl⟩
    · cases e
  refine ⟨?_, ?_, ?_⟩
  · intro line t y line' e
    obtain ⟨u, hl, rfl⟩ := hinv e
    exact Nat.le_trans (longText?_length hl) h
  · intro line t y line' e
    obtain ⟨u, hl, rfl⟩ := hinv e
    exact hf u
  · intro line t y line' other e
    obtain ⟨u, hl, rfl⟩ := hinv e
    obtain ⟨other', ho⟩ := longText?_line hl other
    exact ⟨other', by simp only [ho]⟩

theorem stable_comment (r : List Char) : Stable (stepComment r) r.length := by
  have hline : Stable (fun line => .ok (none, r.dropWhile (!isBreak ·), line)) r.length :=
    stable_ok 0 (List.dropWhile_sublist _).length_le nofun
  unfold stepComment
  split
  · next s =>
    split
    · exact stable_longText (f := fun _ => none) (Nat.le_succ _) nofun
    · exact hline
  · exact hline

theorem stable_bracket (r : List Char) : Stable (stepBracket r) r.length := by
  unfold stepBracket
  split
  · exact stable_longText (f := fun t => some (str (bytes (String.ofList t)))) (Nat.le_refl _) nofun
  split
  · exact stable_error _ _
  · exact stable_ok 0 (Nat.le_refl _) nofun

theorem sign?_length {s : List Char} (h : sign? cs = some s) : 1 ≤ s.length := by
  have hall : ∀ s ∈ longSigns, 1 ≤ s.length := by decide
  exact hall s (List.mem_of_find?_eq_some h)

theorem stable_sign (c : Char) (r : List Char) : Stable (stepSign c r) r.length := by
  unfold stepSign
  split
  · next s hs =>
    have := sign?_length hs
    refine stable_ok 0 ?_ nofun
    simp only [List.length_drop, List.length_cons]
    omega
  · exact stable_ok 0 (Nat.le_refl _) nofun

theorem stable_quoted (c : Char) (r : List Char) :
    Stable (fun line => (quoted (r.length + 1) c r [] line).map fun (t, r, line) =>
      (some (str ⟨t.reverse.toArray⟩), r, line)) r.length := by
  refine ⟨?_, ?_, ?_⟩
  · intro line t y line' e
    obtain ⟨⟨b, z, l⟩, hq, e⟩ := map_eq_ok.1 e
    cases e
    exact quoted_length hq
  · intro line t y line' e
    obtain ⟨⟨b, z, l⟩, -, e⟩ := map_eq_ok.1 e
    cases e
    nofun
  · intro line t y line' other e
    obtain ⟨⟨b, z, l⟩, hq, e⟩ := map_eq_ok.1 e
    cases e
    obtain ⟨other', ho⟩ := quoted_line hq other
    exact ⟨other', map_eq_ok.2 ⟨_, ho, rfl⟩⟩

theorem word_ne_finish (w : List Char) : some (word w) ≠ some finish := by
  unfold word
  split <;> nofun

theorem stable_step (c : Char) (r : List Char) : Stable (step c r) r.length := by
  unfold step
  split
  · exact stable_ok 1 (dropBreak_length c r) nofun
  split
  · exact stable_ok 0 (Nat.le_refl _) nofun
  split
  · exact stable_ok 0 (List.dropWhile_sublist _).length_le (word_ne_finish _)
  split
  · cases hn : readNumber (c :: r) with
    | error e => exact stable_error _ _
    | ok p => exact stable_ok 0 (readNumber_length hn) nofun
  split
  · exact stable_quoted c r
  split
  · have h := stable_comment
    exact ⟨fun e => Nat.le_succ_of_le ((h _).length e), (h _).ne_finish, (h _).other⟩
  · exact stable_bracket _
  · exact stable_sign _ _

inductive Scans : List Char → List Token → Prop
  | nil : Scans [] [finish]
  | step {c : Char} {r y : List Char} {line line' : Nat} {t : Option Token} {ts : List Token}
    (h : step c r line = .ok (t, y, line')) (hs : Scans y ts) : Scans (c :: r) (t.toList ++ ts)

theorem scans_of_scan {acc : List Located} (hf : cs.length < fuel)
    (h : scan fuel cs line acc = .ok ts) :
    ∃ us, Scans cs us ∧ ts.map Located.token = us.reverse ++ acc.map Located.token := by
  induction fuel generalizing cs line acc with
  | zero => omega
  | succ fuel ih =>
    cases cs with
    | nil =>
      cases h
      exact ⟨[finish], .nil, rfl⟩
    | cons c r =>
      rw [scan_succ, bind_eq_ok] at h
      obtain ⟨⟨t, y, line'⟩, hstep, h⟩ := h
      have hl := (stable_step c r).length hstep
      have hlt : y.length < fuel := by
        simp only [List.length_cons] at hf
        omega
      obtain ⟨us, hus, e⟩ := ih hlt h
      refine ⟨_, .step hstep hus, ?_⟩
      have hr : (located t line').map Located.token = t.toList.reverse := by
        cases t <;> rfl
      simp [e, hr]

theorem scan_of_scans {us : List Token} (h : Scans cs us) (hf : cs.length < fuel) (line : Nat)
    (acc : List Located) :
    ∃ ts, scan fuel cs line acc = .ok ts ∧
      ts.map Located.token = us.reverse ++ acc.map Located.token := by
  induction h generalizing fuel line acc with
  | nil =>
    cases fuel with
    | zero => omega
    | succ fuel => exact ⟨_, rfl, rfl⟩
  | @step c r y l l' t ts hstep _ ih =>
    cases fuel with
    | zero => omega
    | succ fuel =>
      have hl := (stable_step c r).length hstep
      obtain ⟨line', hstep⟩ := (stable_step c r).other line hstep
      have hlt : y.length < fuel := by
        simp only [List.length_cons] at hf
        omega
      obtain ⟨us, hus, e⟩ := ih hlt line' (located t line' ++ acc)
      refine ⟨us, by rw [scan_succ, hstep]; exact hus, ?_⟩
      have hr : (located t line').map Located.token = t.toList.reverse := by
        cases t <;> rfl
      simp [e, hr]

theorem all_eq_ok {text : String} (us : List Token) :
    (∃ ts, all text = .ok ts ∧ ts.map Located.token = us) ↔ Scans text.toList us := by
  constructor
  · rintro ⟨ts, h, rfl⟩
    obtain ⟨ts', hs, rfl⟩ := map_eq_ok.1 h
    have hl : text.toList.length < text.length + 1 := by
      rw [String.length_toList]
      exact Nat.lt_succ_self _
    obtain ⟨us, hus, e⟩ := scans_of_scan hl hs
    have he := congrArg List.reverse e
    simp only [List.map_nil, List.append_nil, List.reverse_reverse] at he
    rwa [List.map_reverse, he]
  · intro h
    obtain ⟨ts, hts, e⟩ := scan_of_scans h (Nat.lt_succ_self _) 1 []
    refine ⟨ts.reverse, ?_, by simp [e]⟩
    rw [all, ← String.length_toList, hts]
    rfl

theorem scans_step {t : Option Token} {line' : Nat} {us : List Token}
    (h : step c r line = .ok (t, y, line')) :
    Scans (c :: r) us ↔ ∃ vs, us = t.toList ++ vs ∧ Scans y vs := by
  constructor
  · intro hs
    cases hs with
    | step h' hs =>
      obtain ⟨other, ho⟩ := (stable_step c r).other line h'
      rw [h] at ho
      cases ho
      exact ⟨_, rfl, hs⟩
  · rintro ⟨vs, rfl, hs⟩
    exact .step h hs

theorem Scans.finish {us : List Token} (h : Scans cs us) :
    ∃ vs, us = vs ++ [.finish] ∧ ∀ t ∈ vs, t ≠ .finish := by
  induction h with
  | nil => exact ⟨[], rfl, by simp⟩
  | @step c r y line line' t us hstep _ ih =>
    obtain ⟨vs, rfl, hvs⟩ := ih
    refine ⟨t.toList ++ vs, by simp, fun u hu => ?_⟩
    rcases List.mem_append.1 hu with hu | hu
    · rintro rfl
      exact (stable_step c r).ne_finish hstep (Option.mem_toList.1 hu)
    · exact hvs u hu

theorem step_isBreak (h : isBreak c = true) (r : List Char) (line : Nat) :
    step c r line = .ok (none, dropBreak (c :: r), line + 1) := by
  rw [step.eq_def, if_pos h]

/-- A blank makes no difference. Two line breaks may count as one, so the text after the first is
not always what is left. -/
theorem scans_blank (h : isBreak c = true ∨ Number.isSpace c = true) (us : List Token) :
    Scans (c :: r) us ↔ Scans r us := by
  induction hn : r.length using Nat.strongRecOn generalizing c r with
  | ind n ih =>
    by_cases hb : isBreak c = true
    · rw [scans_step (step_isBreak hb r 0)]
      simp only [Option.toList_none, List.nil_append, exists_eq_left']
      unfold dropBreak
      split
      · next e =>
        cases e
        exact (ih _ (by simp [← hn]) (.inl rfl) rfl).symm
      · next e =>
        cases e
        exact (ih _ (by simp [← hn]) (.inl rfl) rfl).symm
      · next e =>
        cases e
        rfl
      · next e => cases e
    · have hs : step c r 0 = .ok (none, r, 0) := by
        rw [step.eq_def, if_neg hb, if_pos (h.resolve_left hb)]
      rw [scans_step hs]
      simp

end Rulebook.Script.Token
