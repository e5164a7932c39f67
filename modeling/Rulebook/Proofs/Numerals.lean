import Rulebook.Json.Printer
import Rulebook.Proofs.Seams

namespace Rulebook.Decimal

open Float.Model (UnpackedFloat)
open Float.Model.UnpackedFloat (Sign unpackSign unpackSign_def unpack_inj_of_valid)

variable {x : Float} {ds : List Char}

def signOf? : UnpackedFloat → Option Sign
  | .notANumber => none
  | .infinity s | .zero s | .finite s _ _ _ => some s

theorem signOf?_unpack (h : x.isNaN = false) :
    signOf? x.toModel.unpack = some (if isNegative x then .negative else .positive) := by
  have hlt := x.toModel.toBits.toBitVec.isLt
  have hshift : (x.toBits >>> 63).toNat = x.toModel.toBits.toBitVec.toNat / 2 ^ 63 := by
    rw [UInt64.toNat_shiftRight, Nat.shiftRight_eq_div_pow]
    rfl
  have hbit : (@unpackSign .binary64 x.toModel.toBits.toBitVec).toNat =
      x.toModel.toBits.toBitVec.toNat / 2 ^ 63 := by
    rw [unpackSign_def, BitVec.extractLsb'_toNat, Nat.shiftRight_eq_div_pow]
    show _ / 2 ^ 63 % 2 ^ 1 = _
    omega
  have hs : Sign.ofBitVec (@unpackSign .binary64 x.toModel.toBits.toBitVec) =
      if isNegative x then .negative else .positive := by
    simp only [Sign.ofBitVec, isNegative, ← BitVec.toNat_inj, ← UInt64.toNat_inj, hbit, hshift,
      BitVec.toNat_ofNat, decide_eq_true_eq]
    show (if _ = 0 then _ else _) = if _ = 1 then _ else _
    split <;> split <;> first | rfl | omega
  rw [← hs]
  unfold Float.isNaN Float.Model.isNaN Float.Model.unpack UnpackedFloat.unpack at h
  unfold Float.Model.unpack UnpackedFloat.unpack
  dsimp only at h ⊢
  split
  · split
    · rfl
    · simp_all [UnpackedFloat.isNaN]
  · split
    · split <;> rfl
    · rfl

theorem unpack_zero : (0 : Float).toModel.unpack = .zero .positive := rfl

theorem unpack_minusZero : (-0.0 : Float).toModel.unpack = .zero .negative := rfl

theorem lt_zero_iff : x < 0 ↔ UnpackedFloat.lt x.toModel.unpack (.zero .positive) = true := by
  show decide (x.toModel < (0 : Float).toModel) = true ↔ _
  rw [decide_eq_true_iff, ← unpack_zero]
  rfl

theorem isNegative_of_lt (h : x < 0) : isNegative x = true := by
  rw [lt_zero_iff] at h
  have hnan : x.isNaN = false := by
    rw [Bool.eq_false_iff]
    intro hn
    unfold Float.isNaN Float.Model.isNaN at hn
    generalize x.toModel.unpack = f at h hn
    cases f <;> cases hn
    cases h
  have hs := signOf?_unpack hnan
  generalize x.toModel.unpack = f at h hs
  by_contra hn
  rw [if_neg hn] at hs
  cases f with
  | notANumber => cases hs
  | infinity s | zero s | finite s =>
    cases hs
    cases h

/-- Of the numbers that are not below zero only minus zero has a sign. -/
theorem eq_minusZero (hx : x.isFinite = true) (h : ¬ x < 0) (hn : isNegative x = true) :
    x = -0.0 := by
  rw [lt_zero_iff] at h
  have hf : x.toModel.unpack.isFinite = true := hx
  have hnan : x.isNaN = false := by
    show x.toModel.unpack.isNaN = false
    generalize x.toModel.unpack = f at hf
    cases f <;> first | rfl | cases hf
  have hs := signOf?_unpack hnan
  rw [if_pos hn] at hs
  have hz : x.toModel.unpack = (-0.0 : Float).toModel.unpack := by
    rw [unpack_minusZero]
    generalize x.toModel.unpack = f at h hf hs
    cases f with
    | notANumber | infinity => cases hf
    | zero s =>
      cases hs
      rfl
    | finite s m e hm =>
      cases hs
      exact absurd rfl h
  have hb := (unpack_inj_of_valid x.toModel.valid (-0.0 : Float).toModel.valid).1 hz
  exact Float.toBits_inj.1 (UInt64.toBitVec_inj.1 hb)

def IsDigits (ds : List Char) : Prop := ∀ c ∈ ds, c.isDigit = true

inductive Fraction : List Char → Prop
  | none : Fraction []
  | digits {ds : List Char} (h : IsDigits ds) : Fraction ('.' :: ds)

inductive Exponent : List Char → Prop
  | none : Exponent []
  | digits {c : Char} {ds : List Char} (hc : c = '+' ∨ c = '-') (h : IsDigits ds) :
    Exponent ('e' :: c :: ds)

inductive Numeral : List Char → Prop
  | mk {ds fs es : List Char} (hne : ds ≠ []) (hd : IsDigits ds) (hf : Fraction fs)
    (he : Exponent es) : Numeral (ds ++ fs ++ es)

theorem isDigits_toDigits (n : Nat) : IsDigits (Nat.toDigits 10 n) := fun _ hc =>
  Nat.isDigit_of_mem_toDigits (by decide) (by decide) hc

theorem isDigits_zeros (n : Nat) : IsDigits (List.replicate n '0') := by
  intro c hc
  rw [(List.mem_replicate.1 hc).2]
  rfl

theorem IsDigits.append {ds es : List Char} (hd : IsDigits ds) (he : IsDigits es) :
    IsDigits (ds ++ es) := by
  intro c hc
  rcases List.mem_append.1 hc with hc | hc
  · exact hd c hc
  · exact he c hc

theorem IsDigits.take (hd : IsDigits ds) (n : Nat) : IsDigits (ds.take n) :=
  fun c hc => hd c (List.mem_of_mem_take hc)

theorem IsDigits.drop (hd : IsDigits ds) (n : Nat) : IsDigits (ds.drop n) :=
  fun c hc => hd c (List.mem_of_mem_drop hc)

theorem numeral_positional (hne : ds ≠ []) (hd : IsDigits ds) (leading : Int) (mark : Bool) :
    Numeral (positional (String.ofList ds) leading mark).toList := by
  have key {ws fs : List Char} (hw : ws ≠ []) (hd : IsDigits ws) (hf : Fraction fs) :
      Numeral (ws ++ fs) := by
    simpa using Numeral.mk hw hd hf .none
  unfold positional
  dsimp only
  split
  · have hz := (isDigits_zeros (-leading - 1).toNat).append hd
    simpa using key (List.cons_ne_nil '0' []) (isDigits_zeros 1) (.digits hz)
  split
  · have hz := hd.append (isDigits_zeros (leading.toNat + 1 - ds.length))
    have hw : ds ++ List.replicate (leading.toNat + 1 - ds.length) '0' ≠ [] := by simp [hne]
    cases mark with
    | false => simpa using key hw hz .none
    | true => simpa using key hw hz (.digits (isDigits_zeros 1))
  · have hw : ds.take (leading.toNat + 1) ≠ [] := by simp [hne]
    simpa using key hw (hd.take _) (.digits (hd.drop _))

theorem exponent_text (width : Nat) (e : Int) : Exponent (exponentText width e).toList := by
  have hd (k : Nat) := (isDigits_zeros k).append (isDigits_toDigits e.natAbs)
  unfold exponentText padLeft
  split
  · simpa using Exponent.digits (.inr rfl) (hd _)
  · simpa using Exponent.digits (.inl rfl) (hd _)

theorem numeral_scientific (hne : ds ≠ []) (hd : IsDigits ds) (leading : Int) (width : Nat) :
    Numeral (scientific (String.ofList ds) leading width).toList := by
  have hw : ds.take 1 ≠ [] := by simp [hne]
  unfold scientific
  dsimp only
  split
  · simpa using Numeral.mk hw (hd.take 1) .none (exponent_text width leading)
  · simpa using Numeral.mk hw (hd.take 1) (.digits (hd.drop 1)) (exponent_text width leading)

theorem numeral_write (n : Notation) (negative : Bool) (d : Digits) :
    ∃ m, Numeral m ∧ (n.write negative d).toList = (if negative then ['-'] else []) ++ m := by
  have hd := isDigits_toDigits d.digits
  have hne : Nat.toDigits 10 d.digits ≠ [] := Nat.toDigits_ne_nil
  have hs : toString d.digits = String.ofList (Nat.toDigits 10 d.digits) := rfl
  unfold Notation.write
  dsimp only
  generalize (if d.digits = 0 then 0 else d.leading) = leading
  rw [hs, String.toList_append]
  refine ⟨_, ?_, by split <;> rfl⟩
  split
  · exact numeral_positional hne hd _ _
  · exact numeral_scientific hne hd _ _

end Rulebook.Decimal

namespace Rulebook.Json

open Decimal (Numeral IsDigits)

def IsNumber : Json → Prop
  | int _ => True
  | float x => x.isFinite = true
  | _ => False

def hasSign : Json → Bool
  | int n => n < 0
  | float x => Decimal.isNegative x
  | _ => false

theorem numeral_int (n : Int) : ∃ m, Numeral m ∧
    intText n = (if n < 0 then ['-'] else []) ++ m := by
  have key (n : Nat) : Numeral (Nat.toDigits 10 n) := by
    simpa using Numeral.mk Nat.toDigits_ne_nil (Decimal.isDigits_toDigits n) .none .none
  cases n with
  | ofNat n =>
    refine ⟨_, key n, ?_⟩
    rw [if_neg (by simp)]
    exact String.toList_ofList
  | negSucc n =>
    refine ⟨_, key (n + 1), ?_⟩
    rw [if_pos (Int.negSucc_lt_zero n)]
    exact String.toList_append.trans (congrArg _ String.toList_ofList)

theorem isNaN_of_isFinite {x : Float} (h : x.isFinite = true) :
    x.isNaN = false ∧ x.isInf = false := by
  unfold Float.isFinite Float.Model.isFinite at h
  unfold Float.isNaN Float.isInf Float.Model.isNaN Float.Model.isInf
  generalize x.toModel.unpack = f at h
  cases f <;> first | exact ⟨rfl, rfl⟩ | cases h

theorem numeral_float {x : Float} (h : x.isFinite = true) : ∃ m, Numeral m ∧
    (floatText x).toList = (if Decimal.isNegative x then ['-'] else []) ++ m := by
  obtain ⟨hn, hi⟩ := isNaN_of_isFinite h
  rw [floatText, hn, hi, if_neg (by decide)]
  exact Decimal.numeral_write _ _ _

theorem compact_of_not_isFinite {x : Float} (h : ¬ x.isFinite = true) :
    (float x).compact = ['n', 'u', 'l', 'l'] := by
  have hx : (x.isNaN || x.isInf) = true := by
    unfold Float.isFinite Float.Model.isFinite at h
    unfold Float.isNaN Float.isInf Float.Model.isNaN Float.Model.isInf
    generalize x.toModel.unpack = f at h
    cases f <;> first | rfl | exact absurd rfl h
  rw [compact, floatText, if_pos hx]
  rfl

/-- A number's text is a numeral, behind a minus sign if the number has one. -/
theorem numeral_compact {v : Json} (h : v.IsNumber) : ∃ m, Numeral m ∧
    v.compact = (if v.hasSign then ['-'] else []) ++ m := by
  cases v with
  | int n =>
    rw [compact]
    simpa only [hasSign, decide_eq_true_eq] using numeral_int n
  | float x =>
    rw [compact]
    exact numeral_float h
  | null | bool | str | arr | obj => exact h.elim

end Rulebook.Json

namespace Rulebook.Rule

open Decimal (Numeral IsDigits Fraction Exponent)

variable {m ds fs es z : List Char}

theorem number_digits (hd : IsDigits ds) (x : List Char) :
    number false (ds ++ x) = (ds ++ (number false x).1, (number false x).2) := by
  induction ds with
  | nil => rfl
  | cons c ds ih =>
    have hc := hd c List.mem_cons_self
    have hmark : isMark false c = false := not_isMark (.inl hc)
    rw [List.cons_append, number_keep (isNumeral_of_isDigit hc) (by simp [hmark]),
      ih fun d hm => hd d (List.mem_cons_of_mem _ hm)]
    rfl

theorem number_fraction (hf : Fraction fs) (x : List Char) :
    number false (fs ++ x) = (fs ++ (number false x).1, (number false x).2) := by
  cases hf with
  | none => rfl
  | digits h =>
    have hmark : isMark false '.' = false := rfl
    rw [List.cons_append, number_keep rfl (by simp [hmark]), number_digits h]
    rfl

theorem number_exponent (he : Exponent es) (x : List Char) :
    number false (es ++ x) = (es ++ (number false x).1, (number false x).2) := by
  cases he with
  | none => rfl
  | digits hc h =>
    rw [List.cons_append, List.cons_append, number_cons, if_pos, number_digits h]
    · rfl
    · rcases hc with rfl | rfl <;> rfl

theorem number_numeral (hm : Numeral m) (hz : ∀ d ∈ z.head?, isNumeral d = false) :
    number false (m ++ z) = (m, z) := by
  cases hm with
  | mk hne hd hf he =>
    rw [List.append_assoc, List.append_assoc, number_digits hd, number_fraction hf,
      number_exponent he, number_stop hz]
    simp

theorem mem_numeral (hm : Numeral m) {c : Char} (hc : c ∈ m) :
    c.isDigit = true ∨ c ∈ ['.', 'e', '+', '-'] := by
  cases hm with
  | mk hne hd hf he =>
    rcases List.mem_append.1 hc with hc | hc
    · rcases List.mem_append.1 hc with hc | hc
      · exact .inl (hd c hc)
      · cases hf with
        | none => cases hc
        | digits h => exact (List.mem_cons.1 hc).symm.imp (h c) (by rintro rfl; decide)
    · cases he with
      | none => cases hc
      | digits hs h =>
        rcases List.mem_cons.1 hc with rfl | hc
        · exact .inr (by decide)
        · refine (List.mem_cons.1 hc).symm.imp (h c) ?_
          rintro rfl
          rcases hs with rfl | rfl <;> decide

theorem numeral_cons (hm : Numeral m) : ∃ c t, m = c :: t ∧ c.isDigit = true := by
  cases hm with
  | @mk ds fs es hne hd hf he =>
    obtain ⟨c, t, rfl⟩ := List.exists_cons_of_ne_nil hne
    exact ⟨c, t ++ fs ++ es, by simp, hd c List.mem_cons_self⟩

theorem isHex_numeral (hm : Numeral m) (hz : ∀ d ∈ z.head?, isNumeral d = false) :
    isHex (m ++ z) = false := by
  obtain ⟨c, t, rfl, -⟩ := numeral_cons hm
  by_cases hc : c = '0'
  · subst hc
    -- neither the numeral nor what follows it has such a letter second
    have hx (d : Char) (hd : d = 'x' ∨ d = 'X') : d ∉ (t ++ z).head? := by
      intro hm'
      cases t with
      | nil =>
        have := hz d hm'
        rcases hd with rfl | rfl <;> cases this
      | cons e t =>
        cases hm'
        have := mem_numeral hm (List.mem_cons_of_mem _ List.mem_cons_self)
        rcases hd with rfl | rfl <;> revert this <;> decide
    rw [Bool.eq_false_iff, List.cons_append]
    intro h
    rcases (isHex_zero _).1 h with h | h
    · exact hx 'x' (.inl rfl) h
    · exact hx 'X' (.inr rfl) h
  · exact isHex_of_ne hc _

theorem piece_numeral (hm : Numeral m) (hz : ∀ d ∈ z.head?, isNumeral d = false) :
    Piece (m ++ z) ⟨some .number, m⟩ z := by
  have hs : startsNumber (m ++ z) = true := by
    obtain ⟨c, t, rfl, hc⟩ := numeral_cons hm
    simp [startsNumber, hc]
  have := Piece.number hs
  rwa [isHex_numeral hm hz, number_numeral hm hz] at this

end Rulebook.Rule
