import Mathlib
import Rulebook.Text.Blank

namespace Rulebook.Text

variable {cs ds : List Char}

theorem digits?_eq_some {n : Nat} (h : digits? cs = some n) :
    (∀ c ∈ cs, c.isDigit = true) ∧ Nat.ofDigitChars 10 cs 0 = n := by
  unfold digits? at h
  split at h
  · cases h
  · next hcs =>
    simp only [Bool.or_eq_true, not_or, Bool.not_eq_true, Bool.not_eq_false', List.all_eq_true]
      at hcs
    exact ⟨hcs.2, Option.some.inj h⟩

theorem digits?_zero {cs : List Char} (hne : cs ≠ []) : digits? ('0' :: cs) = digits? cs := by
  have hcs : cs.isEmpty = false := by simpa using hne
  have hz : '0'.isDigit = true := by decide
  simp [digits?, hcs, hz]

theorem natBelow?_of_digits (bound : Nat) {s : String} (hd : ∀ c ∈ s.toList, c.isDigit = true) :
    natBelow? bound s = (digits? s.toList).filter (· < bound) := by
  unfold natBelow?
  split
  · next cs hs =>
    have hplus := hd '+' (by rw [hs]; exact .head _)
    cases hplus
  · rfl

theorem natBelow?_plus (bound : Nat) (s : String) :
    natBelow? bound ("+" ++ s) = (digits? s.toList).filter (· < bound) := by
  have hs : ("+" ++ s).toList = '+' :: s.toList := by simp
  rw [natBelow?, hs]
  rfl

theorem ofDigitChars_lt (hcs : ∀ c ∈ cs, c.isDigit = true) (hlen : cs.length = ds.length)
    {m n : Nat} (h : m < n) : Nat.ofDigitChars 10 cs m < Nat.ofDigitChars 10 ds n := by
  induction cs generalizing ds m n with
  | nil =>
    cases List.eq_nil_of_length_eq_zero hlen.symm
    exact h
  | cons c cs ih =>
    cases ds with
    | nil => cases hlen
    | cons d ds =>
      obtain ⟨hc, hcs⟩ := List.forall_mem_cons.1 hcs
      have hle : c.toNat ≤ 57 := (Char.isDigit_iff_toNat.1 hc).2
      have hnext : 10 * m + (c.toNat - 48) < 10 * n + (d.toNat - 48) := by omega
      exact ih hcs (Nat.succ.inj hlen) hnext

/-- Digits of one length are ordered as texts as they are as numbers. -/
theorem lt_iff_ofDigitChars_lt (hcs : ∀ c ∈ cs, c.isDigit = true)
    (hds : ∀ d ∈ ds, d.isDigit = true) (hlen : cs.length = ds.length) (n : Nat) :
    cs < ds ↔ Nat.ofDigitChars 10 cs n < Nat.ofDigitChars 10 ds n := by
  induction cs generalizing ds n with
  | nil =>
    cases List.eq_nil_of_length_eq_zero hlen.symm
    simp
  | cons c cs ih =>
    cases ds with
    | nil => cases hlen
    | cons d ds =>
      obtain ⟨hc, hcs⟩ := List.forall_mem_cons.1 hcs
      obtain ⟨hd, hds⟩ := List.forall_mem_cons.1 hds
      have hrest : cs.length = ds.length := Nat.succ.inj hlen
      have hc : 48 ≤ c.toNat := (Char.isDigit_iff_toNat.1 hc).1
      have hd : 48 ≤ d.toNat := (Char.isDigit_iff_toNat.1 hd).1
      rw [List.cons_lt_cons_iff, Nat.ofDigitChars_cons, Nat.ofDigitChars_cons]
      rcases lt_trichotomy c d with h | h | h
      · have hval : c.toNat < d.toNat := Char.lt_def.1 h
        have hnext : 10 * n + (c.toNat - 48) < 10 * n + (d.toNat - 48) := by omega
        exact iff_of_true (.inl h) (ofDigitChars_lt hcs hrest hnext)
      · simpa [h] using ih hcs hds hrest _
      · have hval : d.toNat < c.toNat := Char.lt_def.1 h
        have hnext : 10 * n + (d.toNat - 48) < 10 * n + (c.toNat - 48) := by omega
        have hnum := ofDigitChars_lt hds hrest.symm hnext
        exact iff_of_false (by simp [h.not_gt, h.ne']) hnum.not_gt

end Rulebook.Text
