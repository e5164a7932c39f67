import Mathlib
import Rulebook.Json.Printer
import Rulebook.Source.JsonText

namespace Rulebook.Source

theorem toList_loop (bs : ByteArray) (i : Nat) (r : List UInt8) :
    ByteArray.toList.loop bs i r = r.reverse ++ bs.data.toList.drop i := by
  fun_induction ByteArray.toList.loop bs i r with
  | case1 i r hlt ih =>
    have hlength : i < bs.data.toList.length := by simpa using hlt
    have hget : bs.get! i = bs.data.toList[i] := getElem!_pos bs.data i hlt
    rw [ih, List.drop_eq_getElem_cons hlength, List.reverse_cons, List.append_assoc, hget]
    rfl
  | case2 i r hge =>
    have hlength : bs.data.toList.length ≤ i := by simpa using hge
    rw [List.drop_eq_nil_of_le hlength, List.append_nil]

theorem toList_eq (bs : ByteArray) : bs.toList = bs.data.toList := by
  rw [ByteArray.toList, toList_loop]
  rfl

def charBytes (c : Char) : List Char :=
  (String.utf8EncodeChar c).map fun b => Char.ofNat b.toNat

def textBytes (cs : List Char) : List Char := cs.flatMap charBytes

@[simp]
theorem textBytes_nil : textBytes [] = [] := rfl

@[simp]
theorem textBytes_append (cs ds : List Char) :
    textBytes (cs ++ ds) = textBytes cs ++ textBytes ds := List.flatMap_append

theorem textBytes_cons (c : Char) (cs : List Char) :
    textBytes (c :: cs) = charBytes c ++ textBytes cs := List.flatMap_cons

theorem byteChars_ofList (cs : List Char) : byteChars (String.ofList cs).toUTF8 = textBytes cs := by
  have hdata : (String.ofList cs).toUTF8.data.toList = cs.flatMap String.utf8EncodeChar := by
    rw [String.toUTF8, String.toByteArray_ofList, List.utf8Encode, List.data_toByteArray]
  rw [byteChars, toList_eq, hdata, List.map_flatMap]
  rfl

theorem byteChars_toUTF8 (s : String) : byteChars s.toUTF8 = textBytes s.toList := by
  rw [← byteChars_ofList, String.ofList_toList]

theorem charBytes_of_lt {c : Char} (h : c.toNat < 128) : charBytes c = [c] := by
  have hsize : c.utf8Size = 1 :=
    Char.utf8Size_eq_one_iff.2 (UInt32.le_iff_toNat_le.2 (Nat.le_of_lt_succ h))
  have hbyte : c.val.toUInt8.toNat = c.toNat := by
    rw [UInt32.toNat_toUInt8]
    exact Nat.mod_eq_of_lt (h.trans (by decide))
  rw [charBytes, String.utf8EncodeChar_eq_singleton hsize, List.map_singleton, hbyte,
    Char.ofNat_toNat]

theorem textBytes_of_lt {cs : List Char} (h : ∀ c ∈ cs, c.toNat < 128) : textBytes cs = cs := by
  induction cs with
  | nil => rfl
  | cons c cs ih =>
    rw [List.forall_mem_cons] at h
    rw [textBytes_cons, charBytes_of_lt h.1, ih h.2]
    rfl

/-- The signs of the notation are not found within other characters. -/
theorem le_of_mem_charBytes {b c : Char} (hc : 128 ≤ c.toNat) (hb : b ∈ charBytes c) :
    128 ≤ b.toNat := by
  obtain ⟨u, hu, rfl⟩ := List.mem_map.1 hb
  have hlarge : 128 ≤ u.toNat := by
    have hc' : ¬ c.val.toNat ≤ 127 := by
      show ¬ c.toNat ≤ 127
      omega
    unfold String.utf8EncodeChar at hu
    simp only [if_neg hc'] at hu
    split at hu
    · simp only [List.mem_cons, List.not_mem_nil, or_false] at hu
      rcases hu with rfl | rfl <;> simp only [UInt8.toNat_ofNat'] <;> omega
    split at hu
    · simp only [List.mem_cons, List.not_mem_nil, or_false] at hu
      rcases hu with rfl | rfl | rfl <;> simp only [UInt8.toNat_ofNat'] <;> omega
    · simp only [List.mem_cons, List.not_mem_nil, or_false] at hu
      rcases hu with rfl | rfl | rfl | rfl <;> simp only [UInt8.toNat_ofNat'] <;> omega
  have hvalid : u.toNat.isValidChar := .inl (u.toNat_lt.trans (by decide))
  rwa [Char.toNat_ofNat, if_pos hvalid]

theorem ofByteChars_byteChars (bs : ByteArray) : ofByteChars (byteChars bs) = bs := by
  have hbyte (b : UInt8) : UInt8.ofNat (Char.ofNat b.toNat).toNat = b := by
    have hvalid : b.toNat.isValidChar := .inl (b.toNat_lt.trans (by decide))
    rw [Char.toNat_ofNat, if_pos hvalid, UInt8.ofNat_toNat]
  rw [ofByteChars, byteChars, List.map_map, toList_eq]
  refine ByteArray.ext (Array.ext' ?_)
  simp [Function.comp_def, hbyte]

theorem decodeUtf8?_toUTF8 (s : String) : decodeUtf8? s.toUTF8 = some s := by
  have hvalid : s.toUTF8.IsValidUTF8 := s.isValidUTF8
  rw [decodeUtf8?, String.fromUTF8?, dif_pos hvalid]
  rfl

theorem decodeUtf8?_textBytes (s : String) :
    decodeUtf8? (ofByteChars (textBytes s.toList)) = some s := by
  rw [← byteChars_toUTF8, ofByteChars_byteChars, decodeUtf8?_toUTF8]

namespace JsonText

variable {acc : Option (List Char)} {r : List Char} {x : Option (Option (List Char) × List Char)}

theorem string?_plain {b : Char} (hq : b ≠ '"') (hs : b ≠ '\\') (hb : 32 ≤ b.toNat) (fuel : Nat) :
    string? (fuel + 1) (b :: r) acc = string? fuel r (acc.map (b :: ·)) := by
  rw [string?, if_neg (Nat.not_lt.2 hb)]
  · exact hq
  · exact fun _ _ _ _ _ h => absurd h hs
  · exact fun _ _ h => absurd h hs

theorem string?_escape {e c : Char} (hu : e ≠ 'u') (he : escape? e = some c) (fuel : Nat) :
    string? (fuel + 1) ('\\' :: e :: r) acc = string? fuel r (acc.map (c :: ·)) := by
  rw [string?, he]
  · rfl
  · exact fun _ _ _ _ _ h => absurd h hu

theorem hexValue?_hexDigit : ∀ n < 16, hexValue? (Json.hexDigit n) = some n := by decide

theorem string?_unicode {c : Char} (hc : c.toNat < 32) (fuel : Nat) :
    string? (fuel + 1) ('\\' :: 'u' :: '0' :: '0' :: Json.hexDigit (c.toNat / 16) ::
      Json.hexDigit (c.toNat % 16) :: r) acc = string? fuel r (acc.map (c :: ·)) := by
  have hhigh := hexValue?_hexDigit (c.toNat / 16) (by omega)
  have hlow := hexValue?_hexDigit (c.toNat % 16) (by omega)
  have hzero : hexValue? '0' = some 0 := rfl
  have hn : hex4? '0' '0' (Json.hexDigit (c.toNat / 16)) (Json.hexDigit (c.toNat % 16)) =
      some c.toNat := by
    simp only [hex4?, hzero, hhigh, hlow, Option.bind_eq_bind, Option.bind_some, Option.pure_def,
      Option.some.injEq]
    omega
  have hchars : utf8Chars c.toNat = [c] := by
    have hbytes := byteChars_ofList [c]
    rw [textBytes_of_lt (by simpa using hc.trans (by decide))] at hbytes
    rw [utf8Chars, Char.ofNat_toNat]
    exact hbytes
  rw [string?, hn]
  simp only [Option.bind_eq_bind, Option.bind_some, hchars, List.reverse_singleton]
  rw [if_neg (by simp; omega), if_neg (by simp; omega)]
  rfl

theorem escapeChar_cases (c : Char) :
    (∃ e, Json.escapeChar c = ['\\', e] ∧ c.toNat < 128 ∧ e.toNat < 128 ∧ e ≠ 'u' ∧
      escape? e = some c) ∨
    (c.toNat < 32 ∧ Json.escapeChar c =
      ['\\', 'u', '0', '0', Json.hexDigit (c.toNat / 16), Json.hexDigit (c.toNat % 16)]) ∨
    (c ≠ '"' ∧ c ≠ '\\' ∧ 32 ≤ c.toNat ∧ Json.escapeChar c = [c]) := by
  unfold Json.escapeChar
  by_cases hq : c = '"'
  · exact .inl ⟨'"', by rw [if_pos hq], by subst hq; decide⟩
  by_cases hs : c = '\\'
  · exact .inl ⟨'\\', by rw [if_neg hq, if_pos hs], by subst hs; decide⟩
  by_cases hn : c = '\n'
  · exact .inl ⟨'n', by rw [if_neg hq, if_neg hs, if_pos hn], by subst hn; decide⟩
  by_cases hr : c = '\r'
  · exact .inl ⟨'r', by rw [if_neg hq, if_neg hs, if_neg hn, if_pos hr], by subst hr; decide⟩
  by_cases ht : c = '\t'
  · refine .inl ⟨'t', ?_, by subst ht; decide⟩
    rw [if_neg hq, if_neg hs, if_neg hn, if_neg hr, if_pos ht]
  by_cases hb : c = '\x08'
  · refine .inl ⟨'b', ?_, by subst hb; decide⟩
    rw [if_neg hq, if_neg hs, if_neg hn, if_neg hr, if_neg ht, if_pos hb]
  by_cases hf : c = '\x0c'
  · refine .inl ⟨'f', ?_, by subst hf; decide⟩
    rw [if_neg hq, if_neg hs, if_neg hn, if_neg hr, if_neg ht, if_neg hb, if_pos hf]
  rw [if_neg hq, if_neg hs, if_neg hn, if_neg hr, if_neg ht, if_neg hb, if_neg hf]
  by_cases hc : c.toNat < 32
  · exact .inr (.inl ⟨hc, if_pos hc⟩)
  · exact .inr (.inr ⟨hq, hs, Nat.not_lt.1 hc, if_neg hc⟩)

theorem toNat_hexDigit_lt : ∀ n < 16, (Json.hexDigit n).toNat < 128 := by decide

theorem string?_bytes {bs : List Char} (hbs : ∀ b ∈ bs, b ≠ '"' ∧ b ≠ '\\' ∧ 32 ≤ b.toNat)
    (h : ∀ fuel, r.length < fuel → string? fuel r (acc.map (bs.reverse ++ ·)) = x) {fuel : Nat}
    (hf : (bs ++ r).length < fuel) : string? fuel (bs ++ r) acc = x := by
  induction bs generalizing acc fuel with
  | nil => simpa using h fuel hf
  | cons b bs ih =>
    obtain ⟨fuel, rfl⟩ := Nat.exists_eq_succ_of_ne_zero (Nat.ne_zero_of_lt hf)
    rw [List.forall_mem_cons] at hbs
    obtain ⟨⟨hq, hs, hb⟩, hbs⟩ := hbs
    rw [List.cons_append, string?_plain hq hs hb]
    refine ih hbs (fun fuel' hf' => ?_) (Nat.lt_of_succ_lt_succ hf)
    simpa [Function.comp_def] using h fuel' hf'

theorem string?_escapeChar {c : Char}
    (h : ∀ fuel, r.length < fuel → string? fuel r (acc.map ((charBytes c).reverse ++ ·)) = x)
    {fuel : Nat} (hf : (textBytes (Json.escapeChar c) ++ r).length < fuel) :
    string? fuel (textBytes (Json.escapeChar c) ++ r) acc = x := by
  rcases escapeChar_cases c with ⟨e, hc, hlt, helt, hu, he⟩ | ⟨hlt, hc⟩ | ⟨hq, hs, hge, hc⟩
  · rw [charBytes_of_lt hlt] at h
    have hbytes : textBytes ['\\', e] = ['\\', e] := textBytes_of_lt (by simp [helt])
    rw [hc, hbytes] at hf ⊢
    obtain ⟨fuel, rfl⟩ := Nat.exists_eq_succ_of_ne_zero (Nat.ne_zero_of_lt hf)
    rw [List.cons_append, List.cons_append, List.nil_append, string?_escape hu he]
    exact h fuel (by simp at hf; omega)
  · rw [charBytes_of_lt (hlt.trans (by decide))] at h
    have hhigh := toNat_hexDigit_lt (c.toNat / 16) (by omega)
    have hlow := toNat_hexDigit_lt (c.toNat % 16) (by omega)
    rw [hc, textBytes_of_lt (by simp [hhigh, hlow])] at hf ⊢
    obtain ⟨fuel, rfl⟩ := Nat.exists_eq_succ_of_ne_zero (Nat.ne_zero_of_lt hf)
    simp only [List.cons_append, List.nil_append, string?_unicode hlt]
    exact h fuel (by simp at hf; omega)
  · rw [hc, textBytes_cons, textBytes_nil, List.append_nil] at hf ⊢
    refine string?_bytes (fun b hb => ?_) h hf
    by_cases hlt : c.toNat < 128
    · rw [charBytes_of_lt hlt, List.mem_singleton] at hb
      exact hb ▸ ⟨hq, hs, hge⟩
    · have hb128 := le_of_mem_charBytes (Nat.not_lt.1 hlt) hb
      refine ⟨?_, ?_, by omega⟩
      · rintro rfl
        exact absurd hb128 (by decide)
      · rintro rfl
        exact absurd hb128 (by decide)

theorem string?_escaped (cs r : List Char) (acc : Option (List Char)) {fuel : Nat}
    (hf : (textBytes (cs.flatMap Json.escapeChar) ++ '"' :: r).length < fuel) :
    string? fuel (textBytes (cs.flatMap Json.escapeChar) ++ '"' :: r) acc =
      some (acc.map ((textBytes cs).reverse ++ ·), r) := by
  induction cs generalizing acc fuel with
  | nil =>
    obtain ⟨fuel, rfl⟩ := Nat.exists_eq_succ_of_ne_zero (Nat.ne_zero_of_lt hf)
    simpa using string?_quote fuel acc r
  | cons c cs ih =>
    rw [List.flatMap_cons, textBytes_append, List.append_assoc] at hf ⊢
    refine string?_escapeChar (fun fuel' hf' => ?_) hf
    rw [ih _ hf', Option.map_map, textBytes_cons, List.reverse_append]
    simp [Function.comp_def]

/-- A text between quotation marks is read back. -/
theorem string?_quoted (s : String) (r : List Char) {fuel : Nat}
    (hf : (textBytes (s.toList.flatMap Json.escapeChar) ++ '"' :: r).length < fuel) :
    ∃ bytes, string? fuel (textBytes (s.toList.flatMap Json.escapeChar) ++ '"' :: r) (some []) =
      some (bytes, r) ∧ stringNode bytes = .ofValue (.str s) := by
  refine ⟨_, string?_escaped s.toList r (some []) hf, ?_⟩
  rw [Option.map_some, List.append_nil, stringNode, List.reverse_reverse]
  simp only [decodeUtf8?_textBytes]

end JsonText

end Rulebook.Source
