import Rulebook.Proofs.Lookups
import Rulebook.Proofs.NameRuns
import Rulebook.Proofs.QuotedTexts

namespace Rulebook.Json

/-- A script has a value of its own for it: it is not `null`, as an integer it fits into 64 bits,
and as a floating-point number it is finite. -/
def isRepresentable : Json → Prop
  | null => False
  | int n => int64Min ≤ n ∧ n ≤ int64Max
  | float x => x.isNaN = false ∧ x.isInf = false
  | _ => True

def Representable : Json → Prop := Leaves isRepresentable

theorem Representable.ne_null {v : Json} (h : v.Representable) : v ≠ null := by
  rintro rfl
  cases h with
  | leaf h => exact h

theorem representable_arr {items : List Json} (h : (arr items).Representable) :
    ∀ v ∈ items, v.Representable := by
  cases h with
  | leaf _ ha => exact absurd rfl (ha items)
  | arr h => exact h

theorem representable_obj {members : List (String × Json)} (h : (obj members).Representable) :
    ∀ m ∈ members, m.2.Representable := by
  cases h with
  | leaf _ _ ho => exact absurd rfl (ho members)
  | obj h => exact h

theorem ordered_items {items : List Json} (h : (arr items).Ordered) : ∀ v ∈ items, v.Ordered := by
  cases h with
  | literal h => cases h
  | arr h => exact h

theorem ordered_members {members : List (String × Json)} (h : (obj members).Ordered) :
    Fields.Sorted members ∧ ∀ m ∈ members, m.2.Ordered := by
  cases h with
  | literal h => cases h
  | obj hn h => exact ⟨List.pairwise_map.1 hn, h⟩

end Rulebook.Json

namespace Rulebook.Script

open Exchange (isOpaque json)

section Back

variable {h : Heap} {n depth : Nat} {v : Value} {j : Json} {above : List Nat}

theorem Copies.not_opaque (hc : Copies h n v j) : isOpaque v = false := by
  cases hc with
  | @int _ _ i hv =>
    rw [hv, Exchange.integer]
    split <;> rfl
  | _ => rfl

theorem text_bytes (s : String) : Exchange.text (bytes s) = .ok s := by
  rw [Exchange.text, show Source.decodeUtf8? (bytes s) = some s from Source.decodeUtf8?_toUTF8 s]

theorem json_integer {i : Int} (hi : Json.int64Min ≤ i ∧ i ≤ Json.int64Max) (h : Heap)
    (depth : Nat) (above : List Nat) : json h depth above (Exchange.integer i) = .ok (.int i) := by
  have hmin : Json.int64Min = -2 ^ 63 := rfl
  have hmax : Json.int64Max = 2 ^ 63 - 1 := rfl
  rw [Exchange.integer, if_pos hi, json, Int64.toInt_ofInt_of_le (by omega) (by omega)]

theorem json_list {r : Nat} {vs : List Value} {items : List Json} (hr : r ∉ above)
    (ht : h.table r = Exchange.listOf vs) (hvs : ∀ v ∈ vs, v ≠ .nil ∧ isOpaque v = false)
    (hlen : vs.length < 2 ^ 63)
    (hitems : List.Forall₂ (fun v j => json h depth (r :: above) v = .ok j) vs items) :
    json h (depth + 1) above (.table r) = .ok (.arr items) := by
  have hsequence := Exchange.sequence_listOf (fun v hv => (hvs v hv).1) hlen
  have hfilter : vs.filter (!isOpaque ·) = vs :=
    List.filter_eq_self.2 fun v hv => by rw [(hvs v hv).2]; rfl
  rw [json, if_neg hr]
  simp only [ht, hsequence, hfilter]
  rw [if_pos (by simp [Exchange.listOf]), mapM_eq_ok.2 hitems]
  rfl

theorem json_object {r : Nat} {fields : Fields Value} {members : List (String × Json)}
    (hr : r ∉ above) (ht : (h.table r).Named fields) (hsorted : Fields.Sorted members)
    (hvs : ∀ f ∈ fields, f.2 ≠ .nil ∧ isOpaque f.2 = false)
    (hmembers : List.Forall₂ (fun f m => f.1 = m.1 ∧ json h depth (r :: above) f.2 = .ok m.2)
      fields members) : json h (depth + 1) above (.table r) = .ok (.obj members) := by
  have hall : (h.table r).members.filter (fun m => !isOpaque m.1 && !isOpaque m.2) =
      fields.map fun f => (.str (bytes f.1), f.2) := by
    have hpresent : fields.filter (!·.2.isNil) = fields := List.filter_eq_self.2 fun f hf => by
      rw [Value.isNil_eq_false_iff.2 (hvs f hf).1]
      rfl
    rw [ht.members_eq, hpresent, List.filter_eq_self]
    intro m hm
    obtain ⟨f, hf, rfl⟩ := List.mem_map.1 hm
    simp only [(hvs f hf).2]
    rfl
  rw [json, if_neg hr]
  simp only [ht.border_eq, ht.isList, hall]
  rw [if_neg (by simp), mapM_eq_ok.2 (List.forall₂_map_left_iff.2 (hmembers.imp ?_))]
  · simp only [ok_bind, hsorted.ofList_eq]
    rfl
  · rintro ⟨name, v⟩ ⟨name', j⟩ ⟨rfl, hj⟩
    simp only [text_bytes, hj, ok_bind]
    rfl

theorem forall₂_of_zip {α β : Type} {R : α → β → Prop} {xs : List α} {ys : List β}
    (hlen : xs.length = ys.length) (h : ∀ p ∈ xs.zip ys, R p.1 p.2) : List.Forall₂ R xs ys :=
  List.forall₂_iff_zip.2 ⟨hlen, fun hp => h _ hp⟩

theorem above_cons {r : Nat} (hr : r < n) (habove : ∀ r ∈ above, n ≤ r) :
    ∀ r' ∈ r :: above, r ≤ r' := by
  intro r' hr'
  rcases List.mem_cons.1 hr' with rfl | hr'
  · exact Nat.le_refl _
  · exact hr.le.trans (habove r' hr')

/-- A copy is read as the value that it was made of. -/
theorem json_copies (hc : Copies h n v j) (hj : j.Representable) (ho : j.Ordered)
    (hshort : Short h n) (hdepth : n ≤ depth) (habove : ∀ r ∈ above, n ≤ r) :
    json h depth above v = .ok j := by
  -- a table lies below the tables that hold it, so none of those around it is met again
  induction hc generalizing depth above with
  | null => exact absurd rfl hj.ne_null
  | bool => exact Exchange.json_bool h depth above _
  | int _ hv =>
    cases hj with
    | leaf hi =>
      rw [hv]
      exact json_integer hi h depth above
  | float n x =>
    cases hj with
    | leaf hx =>
      rw [json, Exchange.number, hx.1, hx.2]
      rfl
  | str n s =>
    rw [Exchange.json_str, text_bytes]
    rfl
  | @arr n r vs items hr hg ht hlen hvs ih =>
    obtain ⟨depth, rfl⟩ : ∃ d, depth = d + 1 := ⟨depth - 1, by omega⟩
    have hitems := Json.representable_arr hj
    have hsize := hshort r hr hg
    rw [ht, Exchange.listOf, List.size_toArray] at hsize
    refine json_list (fun hm => absurd (habove r hm) (by omega)) ht (fun v hv => ?_) (by omega) ?_
    · obtain ⟨w, hw, hcopy⟩ := forall₂_mem (forall₂_of_zip (R := Copies h r) hlen hvs) hv
      exact ⟨fun he => (hitems w hw).ne_null (hcopy.eq_nil_iff.1 he), hcopy.not_opaque⟩
    · refine forall₂_of_zip hlen fun p hp => ?_
      have hm := (List.of_mem_zip hp).2
      exact ih p hp (hitems _ hm) (Json.ordered_items ho _ hm) (hshort.mono hr.le) (by omega)
        (above_cons hr habove)
  | @obj n r fields members hr hg ht hnames hvs ih =>
    obtain ⟨depth, rfl⟩ : ∃ d, depth = d + 1 := ⟨depth - 1, by omega⟩
    have hmembers := Json.representable_obj hj
    obtain ⟨hsorted, hordered⟩ := Json.ordered_members ho
    have hsame : List.Forall₂ (fun (f : String × Value) (m : String × Json) => f.1 = m.1)
        fields members := by
      rwa [Fields.names, Fields.names, ← List.forall₂_eq_eq_eq, List.forall₂_map_left_iff,
        List.forall₂_map_right_iff] at hnames
    refine json_object (fun hm => absurd (habove r hm) (by omega)) ht hsorted (fun f hf => ?_) ?_
    · obtain ⟨m, hm, hcopy⟩ := forall₂_mem (forall₂_of_zip
        (R := fun f m => Copies h r f.2 m.2) hsame.length_eq hvs) hf
      exact ⟨fun he => (hmembers m hm).ne_null (hcopy.eq_nil_iff.1 he), hcopy.not_opaque⟩
    · refine forall₂_of_zip hsame.length_eq fun p hp => ?_
      have hm := (List.of_mem_zip hp).2
      exact ⟨(List.forall₂_iff_zip.1 hsame).2 hp, ih p hp (hmembers _ hm) (hordered _ hm)
        (hshort.mono hr.le) (by omega) (above_cons hr habove)⟩

theorem json_within {r : Nat} (hr : r ∈ above) (depth : Nat) (x : Json) :
    json h depth above (.table r) ≠ .ok x := by
  intro hx
  cases depth with
  | zero =>
    rw [json] at hx
    cases hx
  | succ depth =>
    rw [json, if_pos hr] at hx
    cases hx

/-- A table that contains itself is not read. -/
theorem json_cycle {r : Nat} {s : ByteArray} (ht : (h.table r).Textual)
    (hself : (h.table r).node (.str s) = .table r) (depth : Nat) (x : Json) :
    json h depth above (.table r) ≠ .ok x := by
  intro hx
  cases depth with
  | zero =>
    rw [json] at hx
    cases hx
  | succ depth =>
    by_cases hr : r ∈ above
    · exact json_within hr _ x hx
    rw [json, if_neg hr] at hx
    simp only [ht.border_eq, ht.isList] at hx
    rw [if_neg (by simp)] at hx
    obtain ⟨members, hall, -⟩ := bind_eq_ok.1 hx
    have hnode := (ht.node_iff (v := .table r) rfl).1 hself
    have hmember : (Value.str s, Value.table r) ∈
        (h.table r).members.filter (fun m => !isOpaque m.1 && !isOpaque m.2) := by
      rw [ht.members_eq, List.mem_filter]
      exact ⟨List.mem_map.2 ⟨_, List.mem_filter.2 ⟨hnode, rfl⟩, rfl⟩, rfl⟩
    obtain ⟨m, -, hm⟩ := forall₂_mem (mapM_eq_ok.1 hall) hmember
    obtain ⟨name, -, hm⟩ := bind_eq_ok.1 hm
    obtain ⟨w, hw, -⟩ := bind_eq_ok.1 hm
    exact json_within List.mem_cons_self depth w hw

end Back

section Globals

variable {t : Table} {xs : Fields Value} {name : String} {v : Value}

theorem node_foldl_of_not_mem (h : t.Textual) (hn : name ∉ Fields.names xs) :
    (xs.foldl (fun t x => t.setText x.1 x.2) t).node (.str (bytes name)) =
      t.node (.str (bytes name)) := by
  induction xs generalizing t with
  | nil => rfl
  | cons x xs ih =>
    simp only [Fields.names, List.map_cons, List.mem_cons, not_or] at hn
    rw [List.foldl_cons, ih (Table.textual_setText h _ _) hn.2, Table.node_setText h, if_neg]
    simpa [bytes_inj] using hn.1

theorem node_foldl (h : t.Textual) (hn : (Fields.names xs).Nodup) (hm : (name, v) ∈ xs) :
    (xs.foldl (fun t x => t.setText x.1 x.2) t).node (.str (bytes name)) = v := by
  induction xs generalizing t with
  | nil => cases hm
  | cons x xs ih =>
    simp only [Fields.names, List.map_cons, List.nodup_cons] at hn
    have htext := Table.textual_setText h x.1 x.2
    rcases List.mem_cons.1 hm with rfl | hm
    · rw [List.foldl_cons, node_foldl_of_not_mem htext hn.1, Table.node_setText h, if_pos rfl]
    · exact ih htext hn.2 hm

theorem node_globalLibrary (hm : (name, v) ∈ libraries) :
    globalLibrary.node (.str (bytes name)) = v :=
  node_foldl (Table.textual_foldl_setText (Table.textual_withRoom _) Global.name
    (fun r => .routine (.global r)) Global.all).1 (by decide) hm

end Globals

section Names

variable {limits : Limits} {name : String} {v : Json}

/-- The globals contain themselves, whatever else they are given. -/
theorem node_self (hv : v.Distinct) (hname : name ≠ "_G") :
    ((context limits name v).table Machine.globals).node (.str (bytes "_G")) =
      .table Machine.globals := by
  have hi := installed_context limits name hv
  have hothers : (context limits name v).global "_G" = (Heap.fresh limits.memory).global "_G" :=
    hi.others "_G" (by simpa [Fields.names] using Ne.symm hname)
  rw [Heap.global, hi.stocked.globals.getKey_eq] at hothers
  rw [hothers, Heap.global, Heap.table_globals_fresh,
    Heap.textual_globalLibrary.1.getKey_eq]
  exact node_globalLibrary List.mem_cons_self

/-- A rule that is the name of a value gives that value, if it gives any, at every depth and with
all kinds kept; and it does give one if it has time and room, unless it names the globals. -/
theorem name_gives_value (hn : Rule.IsVariable name) (ho : v.Ordered) (hv : v.Representable) :
    (∀ r, evaluate limits name [(name, v)] = .ok r → r = v) ∧
      (name ≠ "_ENV" → Enough limits name v → evaluate limits name [(name, v)] = .ok v) := by
  have hd := ho.distinct
  have hread {e : Expr} {h : Heap} (hne : name ≠ "_ENV") (hh : Holds (Chunk.giving e)
      ((context limits name v).table Machine.globals) name v h) :
      Exchange.result h (denoted ((context limits name v).table Machine.globals) name) = .ok v := by
    rw [Exchange.result, denoted, if_neg hne]
    exact json_copies hh.copies hv ho hh.short (Nat.le_succ _) nofun
  refine ⟨fun r hr => ?_, fun hne henough => ?_⟩
  · obtain ⟨e, h, hh, hresult⟩ := evaluate_name hn hd hr
    by_cases hname : name = "_ENV"
    · subst hname
      have hself := @node_self limits "_ENV" v hd (by decide)
      have htext := (installed_context limits "_ENV" hd).stocked.globals
      rw [← hh.globals] at hself htext
      exact absurd hresult (json_cycle htext hself _ r)
    · rw [hread hname hh] at hresult
      cases hresult
      rfl
  · obtain ⟨e, h, hh, heq⟩ := evaluate_name_enough hn hd henough
    rw [heq, hread hne hh]
    rfl

theorem name_gives_state :
    let v : Json := .obj [("1", .arr []), ("hero", .obj []), ("turns", .arr [.int 3])]
    evaluate .standard "state" [("state", v)] = .ok v := by
  intro v
  have hturns : ∀ w ∈ [Json.int 3], w.Representable :=
    List.forall_mem_singleton.2 (.leaf ⟨by decide, by decide⟩ nofun nofun)
  have hv : v.Representable := by
    refine .obj (List.forall_mem_cons.2 ⟨.arr nofun, List.forall_mem_cons.2 ⟨.obj nofun, ?_⟩⟩)
    exact List.forall_mem_singleton.2 (.arr hturns)
  have ho : v.Ordered := by
    refine .obj (by decide) (List.forall_mem_cons.2 ⟨.arr nofun, List.forall_mem_cons.2
      ⟨.obj .nil nofun, List.forall_mem_singleton.2 (.arr ?_)⟩⟩)
    exact List.forall_mem_singleton.2 (.literal rfl)
  exact (name_gives_value ⟨by decide, by decide, by decide⟩ ho hv).2 (by decide)
    ⟨by decide, by decide⟩

end Names

end Rulebook.Script
