import Rulebook.Proofs.ResolvedValues
import Rulebook.Proofs.TokenSpans

namespace Rulebook.Template

open Source (byteChars charBytes textBytes)
open Rule (byteLength)
open Rule.Bytewise (part? part?_textBytes)

/-- A placeholder and the bytes that it takes of a text, with its braces. -/
structure Span where
  name : String
  start : Nat
  stop : Nat
deriving DecidableEq, Repr

def spanAt (offset : Nat) (name : String) : Span :=
  ⟨name, offset, offset + byteLength (Segment.hole name).text⟩

def Segment.span? (offset : Nat) : Segment → Option Span
  | char _ => none
  | hole name => some (spanAt offset name)

def spansFrom (offset : Nat) : List Segment → List Span
  | [] => []
  | t :: ss => (t.span? offset).toList ++ spansFrom (offset + byteLength t.text) ss

def spans (s : String) : List Span := spansFrom 0 (segments s.toList)

structure Span.StandsIn (s : String) (p : Span) : Prop where
  isIdent : Text.isIdent p.name = true
  inside : p.stop ≤ s.utf8ByteSize
  text : s.toUTF8.extract p.start p.stop = (braced p.name).toUTF8

def startsName : List Char → Bool
  | [] => false
  | c :: _ => !c.isDigit

/-- The placeholders of bytes that begin `offset` bytes into the whole. A name is taken as a part of
the text, so there is no result where it would begin or end within a character. -/
def search (offset : Nat) : List Char → Option (List Span)
  | [] => some []
  | b :: bs =>
    if b ≠ '\x7b' then search (offset + 1) bs
    else
      let name := bs.takeWhile Text.isIdentRest
      let rest := bs.dropWhile Text.isIdentRest
      if startsName name && rest.head? = some '\x7d' then do
        let _ ← part? bs
        let _ ← part? rest
        let stop := offset + 1 + name.length + 1
        let found ← search stop rest.tail
        return ⟨String.ofList name, offset, stop⟩ :: found
      else search (offset + 1) bs
termination_by bs => bs.length
decreasing_by
  · exact Nat.lt_succ_self _
  · have := (List.dropWhile_suffix Text.isIdentRest (l := bs)).length_le
    simp only [List.length_tail, List.length_cons]
    omega
  · exact Nat.lt_succ_self _

variable {s n : String} {b c : Char} {u v x y cs r : List Char} {ss : List Segment} {p : Span}

section Bytes

theorem prefix_of_textBytes {w : List Char} (hw : ∀ d ∈ w, d.toNat < 128)
    (h : textBytes cs = w ++ v) : ∃ y, cs = w ++ y ∧ v = textBytes y := by
  induction w generalizing cs with
  | nil => exact ⟨cs, rfl, h.symm⟩
  | cons d w ih =>
    rw [List.forall_mem_cons] at hw
    cases cs with
    | nil => cases h
    | cons c cs =>
      rcases Rule.Bytewise.textBytes_cases c cs with ⟨-, he⟩ | ⟨-, b, u, he, hb, -, -⟩
      · obtain ⟨rfl, hrest⟩ := List.cons.inj (he.symm.trans h)
        obtain ⟨y, rfl, hv⟩ := ih hw.2 hrest
        exact ⟨y, rfl, hv⟩
      · obtain ⟨rfl, -⟩ := List.cons.inj (he.symm.trans h)
        have := hw.1
        omega

theorem cons_of_textBytes (hb : b.toNat < 128) (h : textBytes cs = u ++ b :: v) :
    ∃ x y, cs = x ++ b :: y ∧ u = textBytes x ∧ v = textBytes y := by
  induction cs generalizing u with
  | nil => simp at h
  | cons c cs ih =>
    have hbehind {w : List Char} (hu : u = charBytes c ++ w) (hw : textBytes cs = w ++ b :: v) :
        ∃ x y, c :: cs = x ++ b :: y ∧ u = textBytes x ∧ v = textBytes y := by
      obtain ⟨x, y, rfl, rfl, hv⟩ := ih hw
      exact ⟨c :: x, y, rfl, hu, hv⟩
    rcases Nat.lt_or_ge c.toNat 128 with hc | hc
    · rw [Rule.Bytewise.textBytes_plain hc] at h
      cases u with
      | nil =>
        obtain ⟨rfl, rfl⟩ := List.cons.inj h
        exact ⟨[], cs, rfl, rfl, rfl⟩
      | cons a u =>
        obtain ⟨rfl, hrest⟩ := List.cons.inj h
        exact hbehind (w := u) (by rw [Source.charBytes_of_lt hc]; rfl) hrest
    · rw [Source.textBytes_cons] at h
      rcases List.append_eq_append_iff.1 h with ⟨w, hu, hw⟩ | ⟨w, hwide, hw⟩
      · exact hbehind hu hw
      cases w with
      | nil => exact hbehind (w := []) (by simpa using hwide.symm) hw.symm
      | cons d w =>
        -- the byte is none of a wider character
        obtain ⟨rfl, -⟩ := List.cons.inj hw
        have := Source.le_of_mem_charBytes (b := b) hc (by rw [hwide]; simp)
        omega

theorem byteLength_plain {w : List Char} (hw : ∀ d ∈ w, d.toNat < 128) :
    byteLength w = w.length := by
  rw [← Rule.Bytewise.length_textBytes, Source.textBytes_of_lt hw]

theorem append_of_extract {w : List Char} {i j : Nat} (hw : ∀ d ∈ w, d.toNat < 128) (hne : w ≠ [])
    (hj : j ≤ (textBytes cs).length) (h : (textBytes cs).extract i j = w) :
    ∃ x y, cs = x ++ (w ++ y) ∧ i = byteLength x ∧ j = i + byteLength w := by
  rw [List.extract_eq_take_drop] at h
  have hlength := congrArg List.length h
  have hpos := List.length_pos_iff.2 hne
  rw [List.length_take, List.length_drop] at hlength
  have hsplit : textBytes cs =
      (textBytes cs).take i ++ (w ++ ((textBytes cs).drop i).drop (j - i)) := by
    rw [← h, List.take_append_drop, List.take_append_drop]
  have htake : ((textBytes cs).take i).length = i := List.length_take_of_le (by omega)
  rw [byteLength_plain hw]
  cases w with
  | nil => exact absurd rfl hne
  | cons d w =>
    rw [List.forall_mem_cons] at hw
    obtain ⟨x, y, hcs, hx, hy⟩ := cons_of_textBytes hw.1 hsplit
    obtain ⟨y, rfl, -⟩ := prefix_of_textBytes hw.2 hy.symm
    refine ⟨x, y, hcs, ?_, by omega⟩
    rw [← Rule.Bytewise.length_textBytes, ← hx, htake]

theorem identRest_plain (h : Text.isIdentRest c = true) : c.toNat < 128 := by
  by_contra hwide
  rw [Rule.Bytewise.isIdentRest_wide (by omega)] at h
  cases h

theorem hole_plain (hn : IsName n) : ∀ d ∈ (Segment.hole n).text, d.toNat < 128 := by
  intro d hd
  simp only [Segment.text, List.mem_cons, List.mem_append, List.not_mem_nil, or_false] at hd
  rcases hd with rfl | hd | rfl
  · decide
  · exact identRest_plain (hn.rest d hd)
  · decide

theorem hole?_textBytes (cs : List Char) :
    hole? (textBytes cs) = (hole? cs).map fun (n, r) => (n, textBytes r) := by
  cases h : hole? cs with
  | some found =>
    obtain ⟨n, r⟩ := found
    obtain ⟨hn, hstart, rfl⟩ := hole?_eq_some.1 h
    have hplain : ∀ d ∈ n.toList, d.toNat < 128 := fun d hd => identRest_plain (hn.rest d hd)
    refine hole?_eq_some.2 ⟨hn, hstart, ?_⟩
    rw [Source.textBytes_append, Source.textBytes_of_lt hplain,
      Rule.Bytewise.textBytes_plain (by decide)]
  | none =>
    rw [Option.map_none, Option.eq_none_iff_forall_ne_some]
    rintro ⟨n, r⟩ hbytes
    obtain ⟨hn, hstart, he⟩ := hole?_eq_some.1 hbytes
    have hplain : ∀ d ∈ n.toList ++ ['\x7d'], d.toNat < 128 := fun d hd =>
      hole_plain hn d (List.mem_cons_of_mem _ hd)
    obtain ⟨y, rfl, -⟩ := prefix_of_textBytes (v := r) hplain (by simpa using he)
    rw [hole?_eq_some.2 ⟨hn, hstart, show _ = n.toList ++ '\x7d' :: y by simp⟩] at h
    cases h

end Bytes

section Search

theorem search_skip (hu : '\x7b' ∉ u) (offset : Nat) (bs : List Char) :
    search offset (u ++ bs) = search (offset + u.length) bs := by
  induction u generalizing offset with
  | nil => rfl
  | cons b u ih =>
    rw [List.mem_cons, not_or] at hu
    rw [List.cons_append, search, if_pos (Ne.symm hu.1), ih hu.2, List.length_cons, Nat.add_assoc,
      Nat.add_comm 1]

theorem brace_not_mem_charBytes (hc : c ≠ '\x7b') : '\x7b' ∉ charBytes c := by
  intro hm
  rcases Nat.lt_or_ge c.toNat 128 with hplain | hwide
  · rw [Source.charBytes_of_lt hplain] at hm
    exact hc (List.mem_singleton.1 hm).symm
  · exact absurd (Source.le_of_mem_charBytes hwide hm) (by decide)

theorem isIdentStart_iff : Text.isIdentStart c = true ↔
    Text.isIdentRest c = true ∧ c.isDigit = false := by
  constructor
  · intro h
    refine ⟨Rule.isIdentRest_of_isIdentStart h, Bool.eq_false_iff.2 fun hd => ?_⟩
    rw [Rule.not_isIdentStart_of_isDigit hd] at h
    cases h
  · rintro ⟨h, hd⟩
    simpa [Text.isIdentRest, Text.isIdentStart, Char.isAlphanum, hd] using h

theorem search_brace (h : hole? x = none) (offset : Nat) :
    search offset ('\x7b' :: x) = search (offset + 1) x := by
  rw [search, if_neg (by simp)]
  refine if_neg fun hc => ?_
  have hx := List.takeWhile_append_dropWhile (p := Text.isIdentRest) (l := x)
  have hall : ∀ c ∈ x.takeWhile Text.isIdentRest, Text.isIdentRest c = true :=
    List.all_eq_true.1 List.all_takeWhile
  simp only [Bool.and_eq_true, decide_eq_true_eq, List.head?_eq_some_iff] at hc
  obtain ⟨hname, r, hr⟩ := hc
  generalize x.takeWhile Text.isIdentRest = w at hx hall hname
  rw [hr] at hx
  cases w with
  | nil => cases hname
  | cons c w =>
    have hstart : Text.isIdentStart c = true :=
      isIdentStart_iff.2 ⟨hall c (.head _), by simpa [startsName] using hname⟩
    have hfound : hole? x = some (String.ofList (c :: w), r) :=
      hole?_eq_some.2
        ⟨⟨by simp, by simpa using hall⟩, by simpa using hstart, by simpa using hx.symm⟩
    rw [hfound] at h
    cases h

theorem search_hole (h : hole? x = some (n, r)) (hx : part? x = some x) (offset : Nat) :
    search offset ('\x7b' :: x) =
      (search (spanAt offset n).stop r).map (spanAt offset n :: ·) := by
  obtain ⟨hn, hstart, rfl⟩ := hole?_eq_some.1 h
  have hname : startsName n.toList = true := by
    cases hw : n.toList with
    | nil => exact absurd hw hn.ne_nil
    | cons c w =>
      have hc := (isIdentStart_iff.1 (hstart c (by rw [hw]; rfl))).2
      simp [startsName, hc]
  have hlength : byteLength (Segment.hole n).text = 1 + n.toList.length + 1 := by
    rw [byteLength_plain (hole_plain hn), Segment.text]
    simp only [List.length_cons, List.length_append, List.length_nil]
    omega
  have hbrace : part? ('\x7d' :: r) = some ('\x7d' :: r) := rfl
  rw [search, if_neg (by simp)]
  simp only [takeWhile_name hn.rest, dropWhile_name hn.rest, hname, hx, hbrace, List.head?_cons,
    decide_true, Bool.and_self, if_true, Option.bind_eq_bind, Option.bind_some, List.tail_cons,
    String.ofList_toList, spanAt, hlength, ← Nat.add_assoc]
  cases search (offset + 1 + n.toList.length + 1) r <;> rfl

/-- The search comes to the segments of the text one after another. -/
theorem search_textBytes (offset : Nat) (cs : List Char) :
    search offset (textBytes cs) = some (spansFrom offset (segments cs)) := by
  induction cs using segments_induction generalizing offset with
  | nil => simp [search, segments, spansFrom]
  | hole n r hn h ih =>
    have hbytes : hole? (textBytes (n.toList ++ '\x7d' :: r)) = some (n, textBytes r) := by
      rw [hole?_textBytes, h]
      rfl
    rw [Rule.Bytewise.textBytes_plain (by decide), search_hole hbytes (part?_textBytes _), ih,
      segments_hole h]
    rfl
  | char c x hs hbrace ih =>
    have hlength : (charBytes c).length = byteLength [c] := by
      rw [← Rule.Bytewise.length_textBytes, Source.textBytes_cons, Source.textBytes_nil,
        List.append_nil]
    have hrest : spansFrom offset (segments (c :: x)) =
        spansFrom (offset + byteLength [c]) (segments x) := by
      rw [hs]
      rfl
    rw [hrest, ← ih, ← hlength, Source.textBytes_cons]
    by_cases hc : c = '\x7b'
    · have hnone : hole? (textBytes x) = none := by
        rw [hole?_textBytes, hbrace hc]
        rfl
      rw [hc]
      exact search_brace hnone offset
    · exact search_skip (brace_not_mem_charBytes hc) offset _

end Search

section Spans

theorem names_spansFrom (offset : Nat) (ss : List Segment) :
    (spansFrom offset ss).map Span.name = ss.filterMap Segment.name? := by
  induction ss generalizing offset with
  | nil => rfl
  | cons t ss ih =>
    rw [spansFrom, List.map_append, ih]
    cases t <;> rfl

theorem spansFrom_append (offset : Nat) (ss ts : List Segment) : spansFrom offset (ss ++ ts) =
    spansFrom offset ss ++ spansFrom (offset + byteLength (ss.flatMap Segment.text)) ts := by
  induction ss generalizing offset with
  | nil => simp [spansFrom, byteLength]
  | cons t ss ih => simp [spansFrom, ih, Rule.byteLength_append, Nat.add_assoc]

theorem exists_of_mem_spansFrom {offset : Nat} (h : p ∈ spansFrom offset ss) :
    ∃ ss₁ n ss₂, ss = ss₁ ++ .hole n :: ss₂ ∧
      p = spanAt (offset + byteLength (ss₁.flatMap Segment.text)) n := by
  induction ss generalizing offset with
  | nil => cases h
  | cons t ss ih =>
    rcases List.mem_append.1 h with h | h
    · cases t with
      | char c => cases h
      | hole n => exact ⟨[], n, ss, rfl, by simpa [Segment.span?, byteLength] using h⟩
    · obtain ⟨ss₁, n, ss₂, rfl, rfl⟩ := ih h
      refine ⟨t :: ss₁, n, ss₂, rfl, ?_⟩
      rw [List.flatMap_cons, Rule.byteLength_append, Nat.add_assoc]

theorem spansFrom_pairwise (offset : Nat) (ss : List Segment) :
    (spansFrom offset ss).Pairwise fun p q => p.stop ≤ q.start := by
  induction ss generalizing offset with
  | nil => exact .nil
  | cons t ss ih =>
    rw [spansFrom, List.pairwise_append]
    refine ⟨?_, ih _, fun p hp q hq => ?_⟩
    · cases t <;> simp [Segment.span?]
    · obtain ⟨ss₁, n, ss₂, -, rfl⟩ := exists_of_mem_spansFrom hq
      cases t with
      | char c => cases hp
      | hole m =>
        obtain rfl : p = spanAt offset m := by simpa [Segment.span?] using hp
        exact Nat.le_add_right _ _

theorem isIdent_of_mem_segments (h : .hole n ∈ segments x) : Text.isIdent n = true := by
  induction x using segments_induction with
  | nil => simp [segments] at h
  | hole m r hm hh ih =>
    rw [segments_hole hh] at h
    rcases List.mem_cons.1 h with he | h
    · cases he
      exact isIdent_of_hole? hh
    · exact ih h
  | char c x hs _ ih =>
    rw [hs] at h
    exact ih (by simpa using h)

theorem exists_of_mem_spans (h : p ∈ spans s) : ∃ x y, Text.isIdent p.name = true ∧
    s.toList = x ++ ((Segment.hole p.name).text ++ y) ∧ p = spanAt (byteLength x) p.name := by
  obtain ⟨ss₁, n, ss₂, hs, rfl⟩ := exists_of_mem_spansFrom h
  refine ⟨ss₁.flatMap Segment.text, ss₂.flatMap Segment.text, ?_, ?_, by rw [Nat.zero_add]; rfl⟩
  · exact isIdent_of_mem_segments (x := s.toList) (by rw [hs]; simp [spanAt])
  · rw [← segments_text s.toList, hs, List.flatMap_append, List.flatMap_cons]
    rfl

theorem spanAt_mem_spans (hn : Text.isIdent n = true)
    (hs : s.toList = x ++ ((Segment.hole n).text ++ y)) : spanAt (byteLength x) n ∈ spans s := by
  have hcuts : segments s.toList = segments x ++ .hole n :: segments y := by
    rw [hs, ← segments_of_isIdent hn y]
    exact cuts_before (by decide) (by decide) x _
  rw [spans, hcuts, spansFrom_append, segments_text, Nat.zero_add, spansFrom]
  exact List.mem_append_right _ (by simp [Segment.span?])

theorem utf8ByteSize_eq (s : String) : s.utf8ByteSize = byteLength s.toList := by
  rw [Rule.byteLength_eq, String.ofList_toList]

theorem standsIn_of_mem (h : p ∈ spans s) : p.StandsIn s ∧
    String.Pos.Raw.IsValid s ⟨p.start⟩ ∧ String.Pos.Raw.IsValid s ⟨p.stop⟩ := by
  obtain ⟨x, y, hn, hs, hp⟩ := exists_of_mem_spans h
  have hstop : p.stop = byteLength (x ++ (Segment.hole p.name).text) := by
    rw [Rule.byteLength_append, hp]
    rfl
  refine ⟨⟨hn, ?_, ?_⟩, ?_, ?_⟩
  · rw [hstop, utf8ByteSize_eq, hs, ← List.append_assoc, Rule.byteLength_append _ y]
    exact Nat.le_add_right _ _
  · rw [hp]
    exact Rule.extract_of_append hs
  · rw [hp]
    exact Rule.valid_of_append hs
  · rw [hstop]
    exact Rule.valid_of_append (by rw [hs, List.append_assoc])

theorem byteChars_extract (bs : ByteArray) (i j : Nat) :
    byteChars (bs.extract i j) = (byteChars bs).extract i j := by
  rw [byteChars, byteChars, Source.toList_eq, Source.toList_eq, ByteArray.data_extract,
    Array.toList_extract]
  simp [List.extract_eq_take_drop, List.map_take, List.map_drop]

/-- What takes the bytes of a placeholder stands between two parts of the text. -/
theorem mem_of_standsIn (h : p.StandsIn s) : p ∈ spans s := by
  obtain ⟨hn, -, -⟩ := hole?_eq_some.1 (hole?_of_isIdent h.isIdent [])
  have hplain := hole_plain hn
  have htext : (textBytes s.toList).extract p.start p.stop = (Segment.hole p.name).text := by
    have hbytes := congrArg byteChars h.text
    rwa [byteChars_extract, Source.byteChars_toUTF8, Source.byteChars_toUTF8, braced,
      String.toList_ofList, Source.textBytes_of_lt hplain] at hbytes
  have hinside : p.stop ≤ (textBytes s.toList).length := by
    rw [Rule.Bytewise.length_textBytes, ← utf8ByteSize_eq]
    exact h.inside
  obtain ⟨x, y, hs, hstart, hstop⟩ := append_of_extract hplain (List.cons_ne_nil _ _) hinside htext
  have hp : p = spanAt (byteLength x) p.name := by rw [spanAt, ← hstart, ← hstop]
  rw [hp]
  exact spanAt_mem_spans h.isIdent hs

end Spans

/-- The search goes through the bytes of a text without taking a part of it that begins or ends
within a character, and finds the placeholders that the text is cut into, each behind the one
before and between characters. These are all the identifiers that stand between braces. -/
theorem placeholders_exact (s : String) :
    search 0 (byteChars s.toUTF8) = some (spans s) ∧
    (spans s).map Span.name = placeholders s ∧
    ((spans s).Pairwise fun p q => p.stop ≤ q.start) ∧
    (∀ p ∈ spans s, String.Pos.Raw.IsValid s ⟨p.start⟩ ∧ String.Pos.Raw.IsValid s ⟨p.stop⟩) ∧
    ∀ p, p ∈ spans s ↔ p.StandsIn s := by
  refine ⟨?_, names_spansFrom 0 _, spansFrom_pairwise 0 _, fun p hp => (standsIn_of_mem hp).2,
    fun p => ⟨fun hp => (standsIn_of_mem hp).1, mem_of_standsIn⟩⟩
  rw [Source.byteChars_toUTF8]
  exact search_textBytes 0 s.toList

def accented : String := "é\x7ba\x7d\x7b\x7bb_1\x7d\x7d \x7b2c\x7d \x7bné\x7d"

theorem placeholders_exact_accented :
    placeholders accented = ["a", "b_1"] ∧
    search 0 (byteChars accented.toUTF8) = some [⟨"a", 2, 5⟩, ⟨"b_1", 6, 11⟩] ∧
    ∀ p : Span, p.StandsIn accented ↔ p = ⟨"a", 2, 5⟩ ∨ p = ⟨"b_1", 6, 11⟩ := by
  have hspans : spans accented = [⟨"a", 2, 5⟩, ⟨"b_1", 6, 11⟩] := by decide +kernel
  obtain ⟨hsearch, hnames, -, -, hstands⟩ := placeholders_exact accented
  rw [hspans] at hsearch hnames
  refine ⟨hnames.symm, hsearch, fun p => ?_⟩
  rw [← hstands p, hspans, List.mem_pair]

end Rulebook.Template
