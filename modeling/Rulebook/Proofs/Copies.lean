import Rulebook.Proofs.JsonValues
import Rulebook.Proofs.Tables
import Rulebook.Script.Evaluator

namespace Rulebook.Script

def Heap.stock : Nat := 6

/-- The script's value is a copy of the JSON value, made of tables below a place, none of which was
there before anything was copied. Members that are `null` are absent. -/
inductive Copies (h : Heap) : Nat → Value → Json → Prop
  | null (n : Nat) : Copies h n .nil .null
  | bool (n : Nat) (b : Bool) : Copies h n (.bool b) (.bool b)
  | int (n : Nat) {v : Value} {i : Int} (hv : v = Exchange.integer i) : Copies h n v (.int i)
  | float (n : Nat) (x : Float) : Copies h n (.float x) (.float x)
  | str (n : Nat) (s : String) : Copies h n (.str (bytes s)) (.str s)
  | arr {n r : Nat} {vs : List Value} {items : List Json} (hr : r < n)
    (hg : Heap.stock ≤ r) (ht : h.table r = Exchange.listOf vs) (hlen : vs.length = items.length)
    (hvs : ∀ p ∈ vs.zip items, Copies h r p.1 p.2) : Copies h n (.table r) (.arr items)
  | obj {n r : Nat} {fields : Fields Value} {members : List (String × Json)} (hr : r < n)
    (hg : Heap.stock ≤ r) (ht : (h.table r).Named fields)
    (hnames : Fields.names fields = Fields.names members)
    (hvs : ∀ p ∈ fields.zip members, Copies h r p.1.2 p.2.2) : Copies h n (.table r) (.obj members)

structure Heap.Extends (h h' : Heap) : Prop where
  size : h.tables.size ≤ h'.tables.size
  table (r : Nat) : r < h.tables.size → h'.table r = h.table r
  used : h.used ≤ h'.used
  charged (r : Nat) : h.tables.size ≤ r → r < h'.tables.size →
    (h'.table r).memory + h.used ≤ h'.used
  cells : h'.cells = h.cells
  functions : h'.functions = h.functions
  limit : h'.limit = h.limit

namespace Heap.Extends

variable {h h' h'' : Heap}

theorem refl (h : Heap) : h.Extends h where
  size := Nat.le_refl _
  table _ _ := rfl
  used := Nat.le_refl _
  charged _ hle hlt := absurd hlt (Nat.not_lt.2 hle)
  cells := rfl
  functions := rfl
  limit := rfl

theorem trans (h₁ : h.Extends h') (h₂ : h'.Extends h'') : h.Extends h'' where
  size := h₁.size.trans h₂.size
  table r hr := (h₂.table r (hr.trans_le h₁.size)).trans (h₁.table r hr)
  used := h₁.used.trans h₂.used
  charged r hle hlt := by
    rcases Nat.lt_or_ge r h'.tables.size with hr | hr
    · rw [h₂.table r hr]
      exact (h₁.charged r hle hr).trans h₂.used
    · have hu := h₁.used
      have hc := h₂.charged r hr hlt
      omega
  cells := h₂.cells.trans h₁.cells
  functions := h₂.functions.trans h₁.functions
  limit := h₂.limit.trans h₁.limit

theorem newText (h : Heap) (s : ByteArray) : h.Extends (h.newText s).2 where
  size := Nat.le_refl _
  table _ _ := rfl
  used := Nat.le_add_right _ _
  charged _ hle hlt := absurd hlt (Nat.not_lt.2 hle)
  cells := rfl
  functions := rfl
  limit := rfl

theorem table_newTable (h : Heap) (t : Table) : (h.newTable t).2.table h.tables.size = t := by
  simp [Heap.newTable, Heap.table]

theorem newTable (h : Heap) (t : Table) : h.Extends (h.newTable t).2 where
  size := by simp [Heap.newTable]
  table r hr := by
    simp only [Heap.newTable, Heap.table, Array.getD_eq_getD_getElem?, Array.getElem?_push]
    rw [if_neg hr.ne]
  used := Nat.le_add_right _ _
  charged r hle hlt := by
    have hr : r = h.tables.size := by
      simp only [Heap.newTable, Array.size_push] at hlt
      omega
    rw [hr, table_newTable]
    simp only [Heap.newTable]
    omega
  cells := rfl
  functions := rfl
  limit := rfl

end Heap.Extends

def Short (h : Heap) (n : Nat) : Prop :=
  ∀ r < n, Heap.stock ≤ r → (h.table r).items.size < 2 ^ 30

section Laws

variable {h h' : Heap} {n n' : Nat} {v : Value} {j : Json}

theorem Copies.mono (hc : Copies h n v j)
    (ht : ∀ r < n, Heap.stock ≤ r → h'.table r = h.table r) (hn : n ≤ n') :
    Copies h' n' v j := by
  induction hc generalizing n' with
  | null => exact .null _
  | bool => exact .bool _ _
  | int _ hv => exact .int _ hv
  | float => exact .float _ _
  | str => exact .str _ _
  | arr hr hg hl hlen _ ih =>
    exact .arr (hr.trans_le hn) hg ((ht _ hr hg).trans hl) hlen fun p hp =>
      ih p hp (fun r' hr' => ht r' (hr'.trans hr)) (Nat.le_refl _)
  | obj hr hg hl hnames _ ih =>
    refine .obj (hr.trans_le hn) hg ?_ hnames fun p hp =>
      ih p hp (fun r' hr' => ht r' (hr'.trans hr)) (Nat.le_refl _)
    rwa [ht _ hr hg]

theorem Copies.extends (hc : Copies h h.tables.size v j) (he : h.Extends h') :
    Copies h' h'.tables.size v j :=
  hc.mono (fun r hr _ => he.table r hr) he.size

theorem integer_ne_nil (i : Int) : Exchange.integer i ≠ .nil := by
  unfold Exchange.integer
  split <;> nofun

theorem integer_ne_table (i : Int) (r : Nat) : Exchange.integer i ≠ .table r := by
  unfold Exchange.integer
  split <;> nofun

theorem Copies.table_lt {r : Nat} (hc : Copies h n (.table r) j) : r < n := by
  cases hc with
  | int _ hv => exact absurd hv.symm (integer_ne_table _ r)
  | arr hr | obj hr => exact hr

theorem Short.mono (hs : Short h n') (hn : n ≤ n') : Short h n :=
  fun r hr => hs r (hr.trans_le hn)

theorem Copies.items_length {items : List Json} (hc : Copies h n v (.arr items))
    (hshort : Short h n) : items.length < 2 ^ 30 := by
  cases hc with
  | arr hr hg ht hlen =>
    have hsize := hshort _ hr hg
    rw [ht] at hsize
    simpa [Exchange.listOf, hlen] using hsize

theorem Copies.eq_nil_iff (hc : Copies h n v j) : v = .nil ↔ j = .null := by
  cases hc with
  | int _ hv => simp [hv, integer_ne_nil]
  | _ => simp

end Laws

namespace Exchange

mutual

/-- A value is copied to new tables. -/
theorem copies_value (h : Heap) (hg : Heap.stock ≤ h.tables.size) (j : Json)
    (hj : j.Distinct) :
    h.Extends (value h j).2 ∧
      Copies (value h j).2 (value h j).2.tables.size (value h j).1 j := by
  match j with
  | .null => exact ⟨.refl h, .null _⟩
  | .bool b => exact ⟨.refl h, .bool _ b⟩
  | .int i => exact ⟨.refl h, .int _ rfl⟩
  | .float x => exact ⟨.refl h, .float _ x⟩
  | .str s => exact ⟨.newText h _, .str _ s⟩
  | .arr items =>
    have hitems : ∀ v ∈ items, v.Distinct := by
      cases hj with
      | literal h => cases h
      | arr h => exact h
    obtain ⟨he, hlen, hc⟩ := copies_values h hg items hitems
    simp only [value]
    generalize values h items = x at he hlen hc
    obtain ⟨vs, h'⟩ := x
    have hnew := Heap.Extends.newTable h' (listOf vs)
    refine ⟨he.trans hnew, ?_⟩
    refine .arr (by simp [Heap.newTable]) (hg.trans he.size)
      (Heap.Extends.table_newTable h' _) hlen fun p hp => ?_
    exact (hc p hp).mono (fun r hr _ => hnew.table r hr) (Nat.le_refl _)
  | .obj members =>
    obtain ⟨hnames, hmembers⟩ : (Fields.names members).Nodup ∧ ∀ m ∈ members, m.2.Distinct := by
      cases hj with
      | literal h => cases h
      | obj hn h => exact ⟨hn, h⟩
    obtain ⟨fields, ht, hn, he, hc⟩ := copies_record h hg _ [] members
      (Table.named_withRoom members.length) hnames hmembers
    simp only [value]
    generalize record h (Table.withRoom 0 members.length) members = x at ht he hc
    obtain ⟨t, h'⟩ := x
    have hnew := Heap.Extends.newTable h' t
    refine ⟨he.trans hnew, ?_⟩
    refine .obj (by simp [Heap.newTable]) (hg.trans he.size) ?_ hn fun p hp => ?_
    · show ((h'.newTable t).2.table h'.tables.size).Named fields
      rwa [Heap.Extends.table_newTable]
    · exact (hc p hp).mono (fun r hr _ => hnew.table r hr) (Nat.le_refl _)

theorem copies_values (h : Heap) (hg : Heap.stock ≤ h.tables.size) (js : List Json)
    (hjs : ∀ j ∈ js, j.Distinct) :
    h.Extends (values h js).2 ∧ (values h js).1.length = js.length ∧
      ∀ p ∈ (values h js).1.zip js,
        Copies (values h js).2 (values h js).2.tables.size p.1 p.2 := by
  match js with
  | [] => exact ⟨.refl h, rfl, nofun⟩
  | j :: js =>
    obtain ⟨he, hc⟩ := copies_value h hg j (hjs _ List.mem_cons_self)
    obtain ⟨he', hlen, hcs⟩ := copies_values (value h j).2 (hg.trans he.size) js fun j hj =>
      hjs j (List.mem_cons_of_mem _ hj)
    refine ⟨he.trans he', by simp [values, hlen], fun p hp => ?_⟩
    simp only [values, List.zip_cons_cons, List.mem_cons] at hp
    rcases hp with rfl | hp
    · exact hc.extends he'
    · exact hcs p hp

theorem copies_record (h : Heap) (hg : Heap.stock ≤ h.tables.size) (t : Table)
    (fields : Fields Value) (ms : List (String × Json)) (ht : t.Named fields)
    (hn : (Fields.names fields ++ Fields.names ms).Nodup) (hms : ∀ m ∈ ms, m.2.Distinct) :
    ∃ fields', (record h t ms).1.Named (fields ++ fields') ∧
      Fields.names fields' = Fields.names ms ∧ h.Extends (record h t ms).2 ∧
      ∀ p ∈ fields'.zip ms,
        Copies (record h t ms).2 (record h t ms).2.tables.size p.1.2 p.2.2 := by
  match ms with
  | [] => exact ⟨[], by simpa [record] using ht, rfl, .refl h, nofun⟩
  | (name, j) :: rest =>
    obtain ⟨he, hc⟩ := copies_value h hg j (hms _ List.mem_cons_self)
    have hfresh : name ∉ Fields.names fields := fun hm =>
      (List.nodup_append.1 hn).2.2 name hm name List.mem_cons_self rfl
    obtain ⟨fields', ht', hn', he', hcs⟩ := copies_record (value h j).2 (hg.trans he.size)
      (t.setText name (value h j).1) (fields ++ [(name, (value h j).1)]) rest
      (ht.setText hfresh _) (by simpa [Fields.names] using hn)
      fun m hm => hms m (List.mem_cons_of_mem _ hm)
    refine ⟨(name, (value h j).1) :: fields', by simpa [record] using ht', ?_, he.trans he',
      fun p hp => ?_⟩
    · simpa [Fields.names] using hn'
    · simp only [List.zip_cons_cons, List.mem_cons] at hp
      rcases hp with rfl | hp
      · exact hc.extends he'
      · exact hcs p hp

end

mutual

def cost : Json → Nat
  | .str s => textSize (bytes s)
  | .arr items => 56 + 16 * items.length + costOfItems items
  | .obj members => 56 + 48 * members.length + costOfMembers members
  | _ => 0

def costOfItems : List Json → Nat
  | [] => 0
  | j :: js => cost j + costOfItems js

def costOfMembers : List (String × Json) → Nat
  | [] => 0
  | m :: ms => cost m.2 + costOfMembers ms

end

mutual

theorem used_value (h : Heap) (j : Json) : (value h j).2.used ≤ h.used + cost j := by
  match j with
  | .null | .bool _ | .int _ | .float _ => exact Nat.le_refl _
  | .str s => exact Nat.le_refl _
  | .arr items =>
    have hused := used_values h items
    have hlen := length_values h items
    simp only [value, cost, Heap.newTable, Table.memory]
    simp only [listOf, Table.withRoom, Table.roomFor, List.size_toArray, hlen, if_true]
    omega
  | .obj members =>
    obtain ⟨htext, hroom, hused⟩ := used_record h _ members (Table.textual_withRoom members.length)
    have hfirst := Table.roomFor_le members.length
    have hitems : (record h (Table.withRoom 0 members.length) members).1.items.size = 0 := by
      rw [htext.items]
      rfl
    have hempty : (Table.withRoom 0 members.length).nodes.size = 0 := rfl
    have hplaces : (Table.withRoom 0 members.length).room = Table.roomFor members.length := rfl
    simp only [value, cost, Heap.newTable, Table.memory, hitems]
    omega

theorem length_values (h : Heap) (js : List Json) : (values h js).1.length = js.length := by
  match js with
  | [] => rfl
  | j :: js => simp [values, length_values _ js]

theorem used_values (h : Heap) (js : List Json) :
    (values h js).2.used ≤ h.used + costOfItems js := by
  match js with
  | [] => exact Nat.le_refl _
  | j :: js =>
    have hfirst := used_value h j
    have hrest := used_values (value h j).2 js
    simp only [values, costOfItems]
    omega

theorem used_record (h : Heap) (t : Table) (ms : List (String × Json)) (ht : t.Textual) :
    (record h t ms).1.Textual ∧
      (record h t ms).1.room ≤ max t.room (2 * (t.nodes.size + ms.length)) ∧
      (record h t ms).2.used ≤ h.used + costOfMembers ms := by
  match ms with
  | [] => exact ⟨ht, Nat.le_max_left _ _, Nat.le_refl _⟩
  | (name, j) :: rest =>
    have hset := Table.textual_setText ht name (value h j).1
    have hsize := Table.size_setText ht name (value h j).1
    have hone := Table.room_setText ht name (value h j).1
    have hfirst := used_value h j
    obtain ⟨htext, hroom, hused⟩ := used_record (value h j).2 _ rest hset
    simp only [record, costOfMembers, List.length_cons]
    exact ⟨htext, by omega, by omega⟩

end

end Exchange

namespace Heap

def global (h : Heap) (name : String) : Value :=
  (h.table Machine.globals).getKey (.str (bytes name))

theorem size_fresh (limit : Nat) : (fresh limit).tables.size = stock := rfl

/-- The globals are found by texts, and they and every table that was added are counted. -/
structure Stocked (h : Heap) : Prop where
  size : stock ≤ h.tables.size
  globals : (h.table Machine.globals).Textual
  counted : (h.table Machine.globals).memory ≤ h.used
  charged (r : Nat) : stock ≤ r → r < h.tables.size →
    (h.table r).memory + (h.table Machine.globals).memory ≤ h.used

theorem table_globals_fresh (limit : Nat) :
    (fresh limit).table Machine.globals = globalLibrary := rfl

theorem textual_globalLibrary :
    globalLibrary.Textual ∧ globalLibrary.nodes.size ≤ 20 ∧ globalLibrary.room ≤ 64 := by
  obtain ⟨htext, hsize, hroom⟩ := Table.textual_foldl_setText
    (Table.textual_withRoom Global.all.length) Global.name (fun r => .routine (.global r))
    Global.all
  obtain ⟨htext', hsize', hroom'⟩ :=
    Table.textual_foldl_setText htext Prod.fst Prod.snd libraries
  have hzero : (Table.withRoom 0 Global.all.length).nodes.size = 0 := rfl
  have hfirst : (Table.withRoom 0 Global.all.length).room = 16 := by decide
  have hall : Global.all.length = 13 := rfl
  have hlibraries : libraries.length = 7 := rfl
  exact ⟨htext', hsize'.trans (by omega), hroom'.trans (by omega)⟩

theorem stocked_fresh (limit : Nat) : (fresh limit).Stocked := by
  obtain ⟨htext, -, hroom⟩ := textual_globalLibrary
  refine ⟨Nat.le_refl _, htext, ?_, fun r hle hlt => absurd hlt (Nat.not_lt.2 hle)⟩
  have hitems : globalLibrary.items.size = 0 := by
    rw [htext.items]
    rfl
  have hused : (fresh limit).used = 24000 := rfl
  rw [table_globals_fresh, Table.memory, hitems, hused]
  omega

variable {h h' : Heap}

theorem Stocked.extends (hs : h.Stocked) (he : h.Extends h') : h'.Stocked := by
  have hg := he.table Machine.globals (Nat.lt_of_lt_of_le (by decide) hs.size)
  refine ⟨hs.size.trans he.size, ?_, ?_, fun r hle hlt => ?_⟩
  · rw [hg]
    exact hs.globals
  · rw [hg]
    exact hs.counted.trans he.used
  · rw [hg]
    rcases Nat.lt_or_ge r h.tables.size with hr | hr
    · rw [he.table r hr]
      exact (hs.charged r hle hr).trans he.used
    · exact (Nat.add_le_add_left hs.counted _).trans (he.charged r hr hlt)

theorem table_update (h : Heap) (ref : Nat) (f : Table → Table) (hr : ref < h.tables.size)
    (r : Nat) : (h.update ref f).table r = if r = ref then f (h.table ref) else h.table r := by
  simp only [update, table, Array.getD_eq_getD_getElem?, Array.getElem?_modify]
  by_cases he : r = ref
  · subst he
    simp [hr]
  · rw [if_neg he, if_neg (Ne.symm he)]

theorem used_update (h : Heap) (ref : Nat) (f : Table → Table) :
    (h.update ref f).used =
      h.used + ((h.update ref f).table ref).memory - (h.table ref).memory := rfl

section SetGlobal

variable (hs : h.Stocked) (name : String) (v : Value)
include hs

theorem table_setGlobal (r : Nat) :
    (h.setKey Machine.globals (.str (bytes name)) v).table r =
      if r = Machine.globals then (h.table Machine.globals).setText name v else h.table r :=
  table_update h _ _ (Nat.lt_of_lt_of_le (by decide) hs.size) r

theorem stocked_setGlobal : (h.setKey Machine.globals (.str (bytes name)) v).Stocked := by
  have hg := table_setGlobal hs name v Machine.globals
  rw [if_pos rfl] at hg
  have hsize : (h.setKey Machine.globals (.str (bytes name)) v).tables.size = h.tables.size := by
    simp [setKey, update]
  have hused := used_update h Machine.globals fun t => t.setKey (.str (bytes name)) v
  have hcounted := hs.counted
  refine ⟨hsize ▸ hs.size, ?_, ?_, fun r hle hlt => ?_⟩
  · rw [hg]
    exact Table.textual_setText hs.globals name v
  · simp only [setKey] at hg ⊢
    omega
  · have hr := hs.charged r hle (hsize ▸ hlt)
    rw [table_setGlobal hs, if_neg (by rintro rfl; exact absurd hle (by decide))]
    simp only [setKey] at hg ⊢
    omega

end SetGlobal

/-- The globals hold copies of named values, and all else is as it was before. -/
structure Installed (ctx : Fields Json) (h h' : Heap) : Prop where
  stocked : h'.Stocked
  size : h.tables.size ≤ h'.tables.size
  table (r : Nat) : r < h.tables.size → stock ≤ r → h'.table r = h.table r
  cells : h'.cells = h.cells
  functions : h'.functions = h.functions
  limit : h'.limit = h.limit
  copies (f : String × Json) : f ∈ ctx →
    Copies h' h'.tables.size (h'.global f.1) f.2
  others (name : String) : name ∉ Fields.names ctx → h'.global name = h.global name

theorem installed (hs : h.Stocked) {ctx : Fields Json} (hn : (Fields.names ctx).Nodup)
    (hd : ∀ f ∈ ctx, f.2.Distinct) : Installed ctx h (h.install ctx) := by
  induction ctx generalizing h with
  | nil => exact ⟨hs, Nat.le_refl _, fun _ _ _ => rfl, rfl, rfl, rfl, nofun, fun _ _ => rfl⟩
  | cons f rest ih =>
    obtain ⟨name, j⟩ := f
    obtain ⟨he, hc⟩ := Exchange.copies_value h hs.size j (hd _ List.mem_cons_self)
    have hv := hs.extends he
    have hset := table_setGlobal hv name (Exchange.value h j).1
    have hstocked := stocked_setGlobal hv name (Exchange.value h j).1
    have hsize : ((Exchange.value h j).2.setKey Machine.globals (.str (bytes name))
        (Exchange.value h j).1).tables.size = (Exchange.value h j).2.tables.size := by
      simp [setKey, update]
    simp only [Fields.names, List.map_cons, List.nodup_cons] at hn
    have hi := ih hstocked hn.2 fun f hf => hd f (List.mem_cons_of_mem _ hf)
    have hget (other : String) : ((Exchange.value h j).2.setKey Machine.globals
        (.str (bytes name)) (Exchange.value h j).1).global other =
        if other = name then (Exchange.value h j).1 else h.global other := by
      rw [global, global, hstocked.globals.getKey_eq, hset, if_pos rfl,
        Table.node_setText hv.globals, he.table _ (Nat.lt_of_lt_of_le (by decide) hs.size),
        hs.globals.getKey_eq]
      simp only [Key.str.injEq, bytes_inj]
    refine ⟨hi.stocked, he.size.trans (hsize ▸ hi.size), fun r hlt hle => ?_,
      hi.cells.trans he.cells, hi.functions.trans he.functions, hi.limit.trans he.limit, ?_, ?_⟩
    · rw [Heap.install, hi.table r (hsize ▸ hlt.trans_le he.size) hle, hset,
        if_neg (by rintro rfl; exact absurd hle (by decide)), he.table r hlt]
    · intro f hf
      rcases List.mem_cons.1 hf with rfl | hf
      · rw [Heap.install, hi.others name hn.1, hget, if_pos rfl]
        refine hc.mono (fun r hlt hle => ?_) (hsize ▸ hi.size)
        rw [hi.table r (hsize ▸ hlt) hle, hset,
          if_neg (by rintro rfl; exact absurd hle (by decide))]
      · exact hi.copies f hf
    · intro other hother
      simp only [Fields.names, List.map_cons, List.mem_cons, not_or] at hother
      rw [Heap.install, hi.others other hother.2, hget, if_neg hother.1]

theorem used_install (limit : Nat) (name : String) (j : Json) (hj : j.Distinct) :
    ((fresh limit).install [(name, j)]).used ≤ baseSize + Exchange.cost j + 1592 := by
  obtain ⟨htext, hsize, hroom⟩ := textual_globalLibrary
  have hv := Exchange.used_value (fresh limit) j
  obtain ⟨he, -⟩ := Exchange.copies_value (fresh limit) (Nat.le_refl _) j hj
  have hglobals : (Exchange.value (fresh limit) j).2.table Machine.globals = globalLibrary :=
    he.table _ (by rw [size_fresh]; decide)
  have hset := table_setGlobal ((stocked_fresh limit).extends he) name
    (Exchange.value (fresh limit) j).1 Machine.globals
  rw [if_pos rfl, hglobals] at hset
  have hitems : (globalLibrary.setText name (Exchange.value (fresh limit) j).1).items.size = 0 := by
    rw [(Table.textual_setText htext name _).items]
    rfl
  have hmore := Table.room_setText htext name (Exchange.value (fresh limit) j).1
  have hbase : (fresh limit).used = baseSize := rfl
  have hused := used_update (Exchange.value (fresh limit) j).2 Machine.globals
    fun t => t.setKey (.str (bytes name)) (Exchange.value (fresh limit) j).1
  simp only [install, setKey] at hset ⊢
  rw [hused, hset, Table.memory, hitems]
  omega

theorem limit_install (limit : Nat) {ctx : Fields Json} (hn : (Fields.names ctx).Nodup)
    (hd : ∀ f ∈ ctx, f.2.Distinct) : ((fresh limit).install ctx).limit = limit :=
  (installed (stocked_fresh limit) hn hd).limit

theorem isFull_install {limit : Nat} {j : Json} (hj : j.Distinct)
    (hroom : baseSize + Exchange.cost j + 1592 ≤ (fresh limit).bound) (name : String) :
    ((fresh limit).install [(name, j)]).isFull = false := by
  have hused := used_install limit name j hj
  have hlimit : ((fresh limit).install [(name, j)]).limit = limit :=
    limit_install limit (List.nodup_singleton name) (List.forall_mem_singleton.2 hj)
  have hbound : ((fresh limit).install [(name, j)]).bound = (fresh limit).bound := by
    rw [bound, bound, hlimit]
    rfl
  rw [isFull, hbound, decide_eq_false_iff_not]
  omega

/-- Lists on a heap that is not full are short. -/
theorem Stocked.short (hs : h.Stocked) (hfull : h.isFull = false) : Short h h.tables.size := by
  intro r hlt hle
  have hc := hs.charged r hle hlt
  have hused : h.used ≤ ceiling := by
    rw [isFull, decide_eq_false_iff_not, Nat.not_lt] at hfull
    refine hfull.trans ?_
    unfold bound
    split
    · exact Nat.le_refl _
    · exact Nat.min_le_right _ _
  have hceiling : ceiling = 2 ^ 30 := rfl
  unfold Table.memory at hc
  omega

def Keeps (h h' : Heap) : Prop :=
  ∀ r < h.tables.size, stock ≤ r → h'.table r = h.table r

variable {limit : Nat} {ctx : Fields Json}

/-- A named value is found under its name, as a copy that lasts as long as its tables do. -/
theorem copies_context (hn : (Fields.names ctx).Nodup) (hd : ∀ f ∈ ctx, f.2.Distinct)
    (hfull : ((fresh limit).install ctx).isFull = false)
    (hkeeps : ((fresh limit).install ctx).Keeps h) {name : String} {j : Json}
    (hj : (name, j) ∈ ctx) :
    Copies h ((fresh limit).install ctx).tables.size (((fresh limit).install ctx).global name) j ∧
      Short h ((fresh limit).install ctx).tables.size := by
  have hi := installed (stocked_fresh limit) hn hd
  refine ⟨(hi.copies _ hj).mono hkeeps (Nat.le_refl _), fun r hlt hle => ?_⟩
  rw [hkeeps r hlt hle]
  exact hi.stocked.short hfull r hlt hle

end Heap

end Rulebook.Script
