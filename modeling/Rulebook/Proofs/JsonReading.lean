import Rulebook.Proofs.JsonNumerals

namespace Rulebook.Json

open Source

def node : Json → Node
  | str s => .ofValue (.str s)
  | arr items => .list (nodes items)
  | obj members => .map (memberNodes members)
  | v => v.literalNode
where
  nodes : List Json → List Node
    | [] => []
    | v :: vs => node v :: nodes vs
  memberNodes : List (String × Json) → List (Node × Node)
    | [] => []
    | (k, v) :: ms => (.ofValue (.str k), node v) :: memberNodes ms

theorem node_of_isLiteral {v : Json} (h : v.isLiteral = true) : v.node = v.literalNode := by
  cases v with
  | null | bool | int | float => rfl
  | str | arr | obj => cases h

theorem node_arr (items : List Json) : (arr items).node = .list (items.map node) := by
  have hnodes : node.nodes items = items.map node := by
    induction items with
    | nil => rfl
    | cons v vs ih => rw [node.nodes, ih, List.map_cons]
  rw [node, hnodes]

theorem node_obj (members : List (String × Json)) :
    (obj members).node = .map (members.map fun m => (.ofValue (.str m.1), m.2.node)) := by
  have hnodes : node.memberNodes members =
      members.map fun m => (.ofValue (.str m.1), m.2.node) := by
    induction members with
    | nil => rfl
    | cons m ms ih => rw [node.memberNodes, ih, List.map_cons]
  rw [node, hnodes]

end Rulebook.Json

namespace Rulebook.Source.JsonText

open Json (commas newline indented)

variable {bs text z : List Char} {n : Node}

theorem skipBlanks_append (h : ∀ c ∈ bs, isBlank c = true) (z : List Char) :
    skipBlanks (bs ++ z) = skipBlanks z := List.dropWhile_append_of_pos h

theorem skipBlanks_cons {c : Char} (h : isBlank c = false) (z : List Char) :
    skipBlanks (c :: z) = c :: z := by
  rw [skipBlanks, List.dropWhile_cons, h, if_neg Bool.false_ne_true]

/-- The text is read as the node, whatever comes behind it that is no part of a number. -/
def Gives (text : List Char) (n : Node) : Prop :=
  ∀ (z : List Char) (fuel : Nat), EndsNumeral z → text.length < fuel →
    node? fuel (text ++ z) = some (n, z)

theorem Gives.blank (h : Gives text n) (hbs : ∀ c ∈ bs, isBlank c = true) :
    Gives (bs ++ text) n := by
  intro z fuel hz hf
  have hread := h z fuel hz (by simp at hf; omega)
  obtain ⟨fuel, rfl⟩ := Nat.exists_eq_succ_of_ne_zero (Nat.ne_zero_of_lt hf)
  rw [node?] at hread ⊢
  rw [List.append_assoc, skipBlanks_append hbs, hread]

theorem gives_literal {v : Json} (h : v.isLiteral = true) : Gives v.compact v.literalNode := by
  intro z fuel hz hf
  have hread := Json.literal?_compact h hz
  obtain ⟨fuel, rfl⟩ := Nat.exists_eq_succ_of_ne_zero (Nat.ne_zero_of_lt hf)
  obtain ⟨c, t, hc, hsign⟩ := Json.literal_head h
  simp only [List.mem_cons, List.not_mem_nil, or_false, not_or] at hsign
  obtain ⟨hspace, hfeed, htab, hreturn, hlist, hmap, hquote⟩ := hsign
  have hblank : isBlank c = false := by simp [isBlank, hspace, hfeed, htab, hreturn]
  rw [hc, List.cons_append] at hread ⊢
  rw [node?, skipBlanks_cons hblank]
  simp [hlist, hmap, hquote, hread]

theorem quote_append (s : String) (r : List Char) : textBytes (Json.quote s) ++ r =
    '"' :: (textBytes (s.toList.flatMap Json.escapeChar) ++ '"' :: r) := by
  simp [Json.quote, textBytes_cons, charBytes_of_lt]

theorem gives_quote (s : String) : Gives (textBytes (Json.quote s)) (.ofValue (.str s)) := by
  intro z fuel hz hf
  obtain ⟨fuel, rfl⟩ := Nat.exists_eq_succ_of_ne_zero (Nat.ne_zero_of_lt hf)
  obtain ⟨bytes, hread, hnode⟩ := string?_quoted s z (Nat.lt_succ_self _)
  rw [quote_append, node?, skipBlanks_cons rfl]
  simp only [hread, Option.map_some, hnode]

theorem endsNumeral_closing {c : Char} (hbs : ∀ d ∈ bs, isBlank d = true)
    (hc : c = ',' ∨ c = ']' ∨ c = '\x7d') : EndsNumeral (bs ++ c :: z) := by
  cases bs with
  | nil =>
    refine endsNumeral_cons ?_
    rcases hc with rfl | rfl | rfl <;> decide
  | cons b bs =>
    have hb := hbs b (.head _)
    simp only [isBlank, Bool.or_eq_true, decide_eq_true_eq] at hb
    refine endsNumeral_cons ?_
    rcases hb with ((rfl | rfl) | rfl) | rfl <;> decide

theorem items?_item {rest r : List Char} (h : Gives text n) (hrest : EndsNumeral rest) {fuel : Nat}
    (hf : text.length < fuel) (acc : List Node) :
    (skipBlanks rest = ',' :: r →
      items? (fuel + 1) (text ++ rest) acc = items? fuel r (n :: acc)) ∧
    (skipBlanks rest = ']' :: r →
      items? (fuel + 1) (text ++ rest) acc = some ((n :: acc).reverse, r)) := by
  rw [items?, h rest fuel hrest hf, Option.bind_eq_bind, Option.bind_some]
  exact ⟨fun hr => by simp only [hr], fun hr => by simp only [hr]⟩

theorem items?_commas {texts : List (List Char)} {nodes : List Node}
    (h : List.Forall₂ Gives texts nodes) (hne : texts ≠ []) (hbs : ∀ c ∈ bs, isBlank c = true)
    (acc : List Node) {fuel : Nat} (hf : (commas texts ++ (bs ++ [']'])).length < fuel) :
    items? fuel (commas texts ++ (bs ++ ']' :: z)) acc = some (acc.reverse ++ nodes, z) := by
  induction h generalizing acc fuel with
  | nil => exact absurd rfl hne
  | @cons t n texts nodes hn h ih =>
    obtain ⟨fuel, rfl⟩ := Nat.exists_eq_succ_of_ne_zero (Nat.ne_zero_of_lt hf)
    cases h with
    | nil =>
      simp only [commas, List.length_append, List.length_singleton] at hf ⊢
      have hends : EndsNumeral (bs ++ ']' :: z) := endsNumeral_closing hbs (.inr (.inl rfl))
      have hclosing : skipBlanks (bs ++ ']' :: z) = ']' :: z := by
        rw [skipBlanks_append hbs, skipBlanks_cons rfl]
      rw [(items?_item hn hends (by omega) acc).2 hclosing, List.reverse_cons]
    | @cons t' n' texts nodes hn' h =>
      simp only [commas, List.append_assoc, List.cons_append, List.length_append,
        List.length_cons] at hf ⊢
      rw [(items?_item hn (endsNumeral_cons (by decide)) (by omega) acc).1 (skipBlanks_cons rfl _)]
      simpa using ih (List.cons_ne_nil _ _) (n :: acc) (by simp; omega)

theorem node?_skipBlanks (fuel : Nat) (cs : List Char) :
    node? fuel (skipBlanks cs) = node? fuel cs := by
  have hskip : skipBlanks (skipBlanks cs) = skipBlanks cs := List.dropWhile_idempotent isBlank cs
  cases fuel with
  | zero => rw [node?_zero, node?_zero]
  | succ fuel => rw [node?, node?, hskip]

theorem items?_skipBlanks (fuel : Nat) (cs : List Char) (acc : List Node) :
    items? fuel (skipBlanks cs) acc = items? fuel cs acc := by
  cases fuel with
  | zero => rw [items?_zero, items?_zero]
  | succ fuel => rw [items?, items?, node?_skipBlanks]

theorem items?_closing {r : List Char} (h : skipBlanks text = ']' :: r) (fuel : Nat)
    (acc : List Node) : items? fuel text acc = none := by
  cases fuel with
  | zero => rw [items?_zero]
  | succ fuel =>
    have hnode : node? fuel text = none := by
      cases fuel with
      | zero => rw [node?_zero]
      | succ fuel =>
        rw [node?, h]
        rfl
    rw [items?, hnode]
    rfl

theorem gives_list {texts : List (List Char)} {nodes : List Node}
    (h : List.Forall₂ Gives texts nodes) (hne : texts ≠ []) (hbs : ∀ c ∈ bs, isBlank c = true) :
    Gives ('[' :: (commas texts ++ (bs ++ [']']))) (.list nodes) := by
  intro z fuel hz hf
  obtain ⟨fuel, rfl⟩ := Nat.exists_eq_succ_of_ne_zero (Nat.ne_zero_of_lt hf)
  have htext : '[' :: (commas texts ++ (bs ++ [']'])) ++ z =
      '[' :: (commas texts ++ (bs ++ ']' :: z)) := by simp
  have hread : items? fuel (commas texts ++ (bs ++ ']' :: z)) [] = some (nodes, z) :=
    items?_commas h hne hbs [] (Nat.lt_of_succ_lt_succ hf)
  rw [htext, node?, skipBlanks_cons rfl]
  simp only
  split
  · next r hr =>
    rw [items?_closing hr] at hread
    cases hread
  · rw [items?_skipBlanks, hread]
    rfl

theorem entries?_skipBlanks (fuel : Nat) (cs : List Char) (acc : List (Node × Node)) :
    entries? fuel (skipBlanks cs) acc = entries? fuel cs acc := by
  have hskip : skipBlanks (skipBlanks cs) = skipBlanks cs := List.dropWhile_idempotent isBlank cs
  cases fuel with
  | zero => rw [entries?_zero, entries?_zero]
  | succ fuel => rw [entries?, entries?, hskip]

theorem entries?_closing {r : List Char} (h : skipBlanks text = '\x7d' :: r) (fuel : Nat)
    (acc : List (Node × Node)) : entries? fuel text acc = none := by
  cases fuel with
  | zero => rw [entries?_zero]
  | succ fuel =>
    rw [entries?, h]
    rfl

inductive GivesMember : List Char → Node × Node → Prop
  | mk {bs text : List Char} {n : Node} (hbs : ∀ c ∈ bs, isBlank c = true) (k : String)
    (h : Gives text n) :
    GivesMember (bs ++ (textBytes (Json.quote k) ++ ':' :: text)) (.ofValue (.str k), n)

theorem entries?_member {e : Node × Node} {rest r : List Char} (h : GivesMember text e)
    (hrest : EndsNumeral rest) {fuel : Nat} (hf : text.length ≤ fuel) (acc : List (Node × Node)) :
    (skipBlanks rest = ',' :: r →
      entries? (fuel + 1) (text ++ rest) acc = entries? fuel r (e :: acc)) ∧
    (skipBlanks rest = '\x7d' :: r →
      entries? (fuel + 1) (text ++ rest) acc = some ((e :: acc).reverse, r)) := by
  obtain @⟨before, text, n, hbefore, k, hn⟩ := h
  simp only [List.append_assoc, List.cons_append, List.length_append, List.length_cons] at hf ⊢
  obtain ⟨bytes, hkey, hnode⟩ := string?_quoted k (':' :: (text ++ rest)) (Nat.lt_succ_self _)
  have hread := hn rest fuel hrest (by omega)
  rw [entries?, quote_append, skipBlanks_append hbefore, skipBlanks_cons rfl]
  simp only [hkey, Option.bind_eq_bind, Option.bind_some]
  rw [skipBlanks_cons rfl]
  simp only [hread, Option.bind_some, hnode]
  exact ⟨fun hr => by simp only [hr], fun hr => by simp only [hr]⟩

theorem entries?_commas {texts : List (List Char)} {entries : List (Node × Node)}
    (h : List.Forall₂ GivesMember texts entries) (hne : texts ≠ [])
    (hbs : ∀ c ∈ bs, isBlank c = true) (acc : List (Node × Node)) {fuel : Nat}
    (hf : (commas texts ++ (bs ++ ['\x7d'])).length < fuel) :
    entries? fuel (commas texts ++ (bs ++ '\x7d' :: z)) acc =
      some (acc.reverse ++ entries, z) := by
  induction h generalizing acc fuel with
  | nil => exact absurd rfl hne
  | @cons t e texts entries he h ih =>
    obtain ⟨fuel, rfl⟩ := Nat.exists_eq_succ_of_ne_zero (Nat.ne_zero_of_lt hf)
    cases h with
    | nil =>
      simp only [commas, List.length_append, List.length_singleton] at hf ⊢
      have hends : EndsNumeral (bs ++ '\x7d' :: z) := endsNumeral_closing hbs (.inr (.inr rfl))
      have hclosing : skipBlanks (bs ++ '\x7d' :: z) = '\x7d' :: z := by
        rw [skipBlanks_append hbs, skipBlanks_cons rfl]
      rw [(entries?_member he hends (by omega) acc).2 hclosing, List.reverse_cons]
    | @cons t' e' texts entries he' h =>
      simp only [commas, List.append_assoc, List.cons_append, List.length_append,
        List.length_cons] at hf ⊢
      rw [(entries?_member he (endsNumeral_cons (by decide)) (by omega) acc).1
        (skipBlanks_cons rfl _)]
      simpa using ih (List.cons_ne_nil _ _) (e :: acc) (by simp; omega)

theorem gives_map {texts : List (List Char)} {entries : List (Node × Node)}
    (h : List.Forall₂ GivesMember texts entries) (hne : texts ≠ [])
    (hbs : ∀ c ∈ bs, isBlank c = true) :
    Gives ('\x7b' :: (commas texts ++ (bs ++ ['\x7d']))) (.map entries) := by
  intro z fuel hz hf
  obtain ⟨fuel, rfl⟩ := Nat.exists_eq_succ_of_ne_zero (Nat.ne_zero_of_lt hf)
  have htext : '\x7b' :: (commas texts ++ (bs ++ ['\x7d'])) ++ z =
      '\x7b' :: (commas texts ++ (bs ++ '\x7d' :: z)) := by simp
  have hread : entries? fuel (commas texts ++ (bs ++ '\x7d' :: z)) [] = some (entries, z) :=
    entries?_commas h hne hbs [] (Nat.lt_of_succ_lt_succ hf)
  rw [htext, node?, skipBlanks_cons rfl]
  simp only
  split
  · next r hr =>
    rw [entries?_closing hr] at hread
    cases hread
  · rw [entries?_skipBlanks, hread]
    rfl

theorem newline_blank (depth : Nat) : ∀ c ∈ newline depth, isBlank c = true := by
  intro c hc
  rcases List.mem_cons.1 hc with rfl | hc
  · rfl
  · rw [(List.mem_replicate.1 hc).2]
    rfl

theorem textBytes_newline (depth : Nat) : textBytes (newline depth) = newline depth := by
  refine textBytes_of_lt fun c hc => ?_
  rcases List.mem_cons.1 hc with rfl | hc
  · decide
  · rw [(List.mem_replicate.1 hc).2]
    decide

theorem textBytes_commas (ps : List (List Char)) :
    textBytes (commas ps) = commas (ps.map textBytes) := by
  induction ps with
  | nil => rfl
  | cons p ps ih =>
    cases ps with
    | nil => rfl
    | cons q ps =>
      simpa [commas, textBytes_cons, charBytes_of_lt] using ih

theorem textBytes_block {o c : Char} (ho : o.toNat < 128) (hc : c.toNat < 128) (depth : Nat)
    {ps : List (List Char)} (hne : ps ≠ []) : textBytes (Json.block o c depth ps) =
      o :: (commas (ps.map fun p => newline (depth + 1) ++ textBytes p) ++
        (newline depth ++ [c])) := by
  have hempty : ps.isEmpty = false := by simpa using hne
  rw [Json.block, hempty, if_neg Bool.false_ne_true]
  simp only [List.cons_append, List.append_assoc, textBytes_cons, textBytes_append, textBytes_nil,
    charBytes_of_lt ho, charBytes_of_lt hc, textBytes_commas, textBytes_newline, List.map_map,
    List.nil_append, Function.comp_def]

theorem gives_block {ps : List (List Char)} {nodes : List Node} (depth : Nat)
    (h : List.Forall₂ Gives (ps.map fun p => newline (depth + 1) ++ textBytes p) nodes) :
    Gives (textBytes (Json.block '[' ']' depth ps)) (.list nodes) := by
  cases ps with
  | nil =>
    cases h
    have htext : textBytes (Json.block '[' ']' depth []) = ['[', ']'] := by
      simp [Json.block, textBytes_cons, charBytes_of_lt]
    rw [htext]
    intro z fuel hz hf
    obtain ⟨fuel, rfl⟩ := Nat.exists_eq_succ_of_ne_zero (Nat.ne_zero_of_lt hf)
    rw [List.cons_append, node?, skipBlanks_cons rfl]
    simp only [List.cons_append, List.nil_append]
    rw [skipBlanks_cons rfl]
    rfl
  | cons p ps =>
    rw [textBytes_block (by decide) (by decide) depth (List.cons_ne_nil p ps)]
    exact gives_list h (by simp) (newline_blank depth)

theorem gives_memberBlock {ps : List (List Char)} {entries : List (Node × Node)} (depth : Nat)
    (h : List.Forall₂ GivesMember (ps.map fun p => newline (depth + 1) ++ textBytes p) entries) :
    Gives (textBytes (Json.block '\x7b' '\x7d' depth ps)) (.map entries) := by
  cases ps with
  | nil =>
    cases h
    have htext : textBytes (Json.block '\x7b' '\x7d' depth []) = ['\x7b', '\x7d'] := by
      simp [Json.block, textBytes_cons, charBytes_of_lt]
    rw [htext]
    intro z fuel hz hf
    obtain ⟨fuel, rfl⟩ := Nat.exists_eq_succ_of_ne_zero (Nat.ne_zero_of_lt hf)
    rw [List.cons_append, node?, skipBlanks_cons rfl]
    simp only [List.cons_append, List.nil_append]
    rw [skipBlanks_cons rfl]
    rfl
  | cons p ps =>
    rw [textBytes_block (by decide) (by decide) depth (List.cons_ne_nil p ps)]
    exact gives_map h (by simp) (newline_blank depth)

theorem gives_line {v : Json} (h : v.isLiteral = true) (depth : Nat) :
    Gives (textBytes (indented depth v)) v.node := by
  have hline : indented depth v = v.compact := by
    cases v with
    | null | bool | int | float => rfl
    | str | arr | obj => cases h
  rw [hline, textBytes_of_lt (Json.literal_ascii h), Json.node_of_isLiteral h]
  exact gives_literal h

mutual

/-- The text of a value over several lines is read as its node. -/
theorem gives_indented : ∀ (depth : Nat) (v : Json), Gives (textBytes (indented depth v)) v.node
  | depth, .arr items => by
    rw [indented, Json.node]
    exact gives_block depth (gives_items depth items)
  | depth, .obj members => by
    rw [indented, Json.node]
    exact gives_memberBlock depth (gives_members depth members)
  | depth, .str s => gives_quote s
  | depth, .null => gives_line rfl depth
  | depth, .bool b => gives_line rfl depth
  | depth, .int n => gives_line rfl depth
  | depth, .float x => gives_line rfl depth

theorem gives_items : ∀ (depth : Nat) (items : List Json), List.Forall₂ Gives
    ((indented.indentedItems depth items).map fun p => newline (depth + 1) ++ textBytes p)
    (Json.node.nodes items)
  | _, [] => .nil
  | depth, v :: vs =>
    .cons ((gives_indented (depth + 1) v).blank (newline_blank _)) (gives_items depth vs)

theorem gives_members : ∀ (depth : Nat) (members : List (String × Json)), List.Forall₂ GivesMember
    ((indented.indentedMembers depth members).map fun p => newline (depth + 1) ++ textBytes p)
    (Json.node.memberNodes members)
  | _, [] => .nil
  | depth, (k, v) :: ms => by
    have hspace : Gives (' ' :: textBytes (indented (depth + 1) v)) v.node :=
      Gives.blank (gives_indented (depth + 1) v) (List.forall_mem_singleton.2 rfl)
    have hmember := GivesMember.mk (newline_blank (depth + 1)) k hspace
    refine .cons ?_ (gives_members depth ms)
    simpa [textBytes_cons, charBytes_of_lt] using hmember

end

/-- Printed text is read, and gives the node of what was printed. -/
theorem parse?_pretty (v : Json) : parse? v.pretty.toUTF8 = some v.node := by
  have hread := gives_indented 0 v [] _ endsNumeral_nil (Nat.lt_add_of_pos_right (Nat.zero_lt_two))
  rw [List.append_nil] at hread
  rw [parse?, Json.pretty, byteChars_ofList]
  simp only
  rw [hread]
  rfl

end Rulebook.Source.JsonText
