import Rulebook.Proofs.PlainNodes
import Rulebook.Proofs.Redrafting

namespace Rulebook.Ruleset

open Source
open Json (Readable)

variable {p : Bool} {k : Nat} {α β : Type}

theorem list?_node (items : List Json) : (Json.arr items).node.list? ⟨p, k + 1⟩ =
    some (⟨p, k⟩, items.map Json.node) := by
  rw [Json.node_arr]
  rfl

theorem map?_node (members : List (String × Json)) : (Json.obj members).node.map? ⟨p, k + 1⟩ =
    some (⟨p, k⟩, members.map fun m => (m.1, m.2.node)) := by
  rw [Json.node_obj, Node.map?, mapM_map_eq_some (g := fun m => (m.1, m.2.node))]
  · rfl
  · exact fun m _ => rfl

theorem record?_node {members : List (String × Json)} (hn : (Fields.names members).Nodup)
    (names : List String) : (Json.obj members).node.record? ⟨p, k + 1⟩ names =
      some (⟨p, k⟩, names.map fun name => (Fields.get? members name).map Json.node) := by
  have hmap : (Json.obj members).node.map? ⟨p, k + 1⟩ = _ := map?_node members
  have hnodes : (Fields.names (members.map fun m => (m.1, m.2.node))).Nodup := by
    rwa [Fields.names, List.map_map]
  rw [Json.node_obj] at hmap ⊢
  rw [Node.record?, hmap]
  · simp only [Option.bind_eq_bind, Option.bind_some, Fields.filter_name hnodes, Fields.get?_map]
    rw [mapM_eq_some.2 (List.forall₂_map_right_iff.2 (List.forall₂_same.2 fun name _ => ?_))]
    · rfl
    · cases Fields.get? members name <;> rfl
  · exact fun _ h => by cases h

theorem listOf_node {read : Node.Grammar → Node → Option β} {write : α → Json} {back : α → β}
    {as : List α} (h : ∀ a ∈ as, read ⟨p, k⟩ (write a).node = some (back a)) :
    listOf read ⟨p, k + 1⟩ (Json.arr (as.map write)).node = some (as.map back) := by
  rw [listOf, list?_node, List.map_map]
  exact mapM_map_eq_some h

theorem mapOf_node {read : Node.Grammar → Node → Option β} {name : α → String} {write : α → Json}
    {back : α → β} {as : List α} (h : ∀ a ∈ as, read ⟨p, k⟩ (write a).node = some (back a)) :
    mapOf read ⟨p, k + 1⟩ (Json.obj (as.map fun a => (name a, write a))).node =
      some (Fields.ofList (as.map fun a => (name a, back a))) := by
  rw [mapOf, map?_node, Option.bind_eq_bind, Option.bind_some]
  simp only
  rw [List.map_map, mapM_map_eq_some (g := fun a => (name a, back a))]
  · rfl
  · intro a ha
    simp only [Function.comp_apply, h a ha, Option.map_some]

structure Document.Ordered (d : Document) : Prop where
  phases : d.functions.Sorted
  functions : ∀ e ∈ d.functions, ∀ f ∈ e.2, f.draft.Ordered
  gameData : d.gameData.Sorted
  values : ∀ m ∈ d.gameData, m.2.Ordered
  prompts : d.prompts.Sorted

theorem ordered_checkedParameter {q : DraftParameter} {r : Parameter} {location : String}
    (h : q.checked? location = some r) (ho : q.Ordered) : r.draft.Ordered := by
  unfold DraftParameter.checked? at h
  split at h
  · obtain ⟨type, -, rfl⟩ := Option.map_eq_some_iff.1 h
    exact ho
  · cases h

theorem ordered_checkedFunction {f : DraftFunction} {fn : Function} {location : String}
    (h : f.checked? location = some fn) (ho : f.Ordered) : fn.draft.Ordered := by
  unfold DraftFunction.checked? at h
  split at h
  · cases h
    constructor
    · intro q hq
      obtain ⟨r, hr, rfl⟩ := List.mem_map.1 hq
      obtain ⟨q, hq, _, hc⟩ := mem_checkedParameters hr
      exact ordered_checkedParameter hc (ho.1 q hq)
    · intro e he
      obtain ⟨s, hs, rfl⟩ := List.mem_map.1 he
      obtain ⟨e, hmem, hc⟩ := List.mem_filterMap.1 hs
      obtain ⟨op, -, rfl⟩ := Option.map_eq_some_iff.1 hc
      exact ho.2 e hmem
  · cases h

theorem ordered_document {d : Draft} (h : d.Ordered) : d.document.Ordered where
  phases := d.sorted_functions
  functions := by
    intro e he fn hfn
    obtain ⟨entry, hentry, f, hf, _, hc⟩ := mem_document_functions he hfn
    exact ordered_checkedFunction hc (h.functions entry hentry f hf)
  gameData := h.gameData
  values := h.values
  prompts := d.sorted_prompts

theorem default_ne_null {q : Parameter} (h : q.draft.WellFormed) : ∀ v ∈ q.default, v ≠ .null := by
  obtain ⟨type, -, htyped⟩ := h.type
  rintro v hv rfl
  have haccepts := htyped.default .null hv
  cases type <;> cases haccepts

theorem distinct_metadata (m : Metadata) : m.toJson.Distinct := by
  rw [Metadata.toJson, Json.distinct_obj]
  cases m.description <;> simp [Fields.names, optional, strings]

theorem distinct_parameter {q : Parameter} (ho : q.draft.Ordered) : q.toJson.Distinct := by
  obtain ⟨name, type, required, description, default, allowed⟩ := q
  have hdefault (v : Json) (hv : v ∈ default) : v.Distinct := (ho.1 v hv).distinct
  have hallowed (vs : List Json) (hvs : vs ∈ allowed) (v : Json) (hv : v ∈ vs) : v.Distinct :=
    (ho.2 vs hvs v hv).distinct
  rw [Parameter.toJson, Json.distinct_obj]
  cases default <;> cases allowed <;> simp_all [Fields.names, optional]

theorem distinct_effect {e : EffectSpec} (ho : e.value.Ordered) : e.toJson.Distinct := by
  simp [EffectSpec.toJson, Fields.names, ho.distinct]

theorem distinct_function {f : Function} (ho : f.draft.Ordered) : f.toJson.Distinct := by
  have hparameters (q : Parameter) (hq : q ∈ f.parameters) : q.toJson.Distinct :=
    distinct_parameter (ho.1 _ (List.mem_map_of_mem hq))
  have heffects (e : EffectSpec) (he : e ∈ f.effects) : e.toJson.Distinct :=
    distinct_effect (ho.2 _ (List.mem_map_of_mem he))
  simpa [Function.toJson, Fields.names, strings] using ⟨hparameters, heffects⟩

theorem distinct_document {d : Document} (ho : d.Ordered) : d.toJson.Distinct := by
  have hphases := nodup_names_named (fun fs => Json.arr (fs.map Function.toJson)) ho.phases
  have hprompts := nodup_names_named Json.str ho.prompts
  have hfunctions (e : Phase × List Function) (he : e ∈ d.functions) (f : Function) (hf : f ∈ e.2) :
      f.toJson.Distinct := distinct_function (ho.functions e he f hf)
  have hvalues (m : String × Json) (hm : m ∈ d.gameData) : m.2.Distinct := (ho.values m hm).distinct
  have hmetadata := distinct_metadata d.metadata
  have hdata := ho.gameData.nodup_names
  have hphaseMap : (Json.obj (named (fun fs => Json.arr (fs.map Function.toJson))
      d.functions)).Distinct := by
    refine Json.distinct_obj.2 ⟨hphases, fun m hm => ?_⟩
    obtain ⟨e, he, rfl⟩ := List.mem_map.1 hm
    simpa using hfunctions e he
  have hpromptMap : (Json.obj (named Json.str d.prompts)).Distinct := by
    refine Json.distinct_obj.2 ⟨hprompts, fun m hm => ?_⟩
    obtain ⟨e, -, rfl⟩ := List.mem_map.1 hm
    exact Json.distinct_str e.2
  have hdataMap : (Json.obj d.gameData).Distinct := Json.distinct_obj.2 ⟨hdata, hvalues⟩
  rw [Document.toJson, Json.distinct_obj]
  refine ⟨by simp [Fields.names], ?_⟩
  simp only [List.forall_mem_cons]
  exact ⟨hmetadata, hphaseMap, hdataMap, hpromptMap, by simp⟩

theorem readText_str (g : Node.Grammar) (s : String) : readText g (Json.str s).node = some s := rfl

theorem readValue_str (g : Node.Grammar) (s : String) :
    readValue g (Json.str s).node = some (.str s) := by
  rw [readValue]
  exact Node.value?_node (.str _ s)

theorem readValue_node {v : Json} (h : Readable k v) (ho : v.Ordered) :
    readValue ⟨p, k⟩ v.node = some v := by
  rw [readValue, Node.value?_node h, ho.ordered_eq]

theorem isNull_node {v : Json} (h : Readable k v) (hv : v ≠ .null) : v.node.isNull = false := by
  cases h with
  | literal h hnode =>
    rw [Json.node_of_isLiteral h, hnode]
    cases v <;> first | rfl | exact absurd rfl hv
  | str => rfl
  | arr =>
    rw [Json.node_arr]
    rfl
  | obj =>
    rw [Json.node_obj]
    rfl

theorem get?_nil (name : String) : Fields.get? ([] : Fields Json) name = none := rfl

theorem listOf_strings (ss : List String) :
    listOf readText ⟨p, k + 1⟩ (strings ss).node = some ss :=
  (listOf_node fun s _ => readText_str _ s).trans (congrArg some (List.map_id ss))

theorem read_metadata (m : Metadata) :
    DraftMetadata.read ⟨p, k + 2⟩ m.toJson.node = some m.draft := by
  obtain ⟨id, name, version, tags, description⟩ := m
  have hn := (Json.distinct_obj.1 (distinct_metadata ⟨id, name, version, tags, description⟩)).1
  have hdescription (s : String) : (Json.str s).node.isNull = false := rfl
  rw [DraftMetadata.read, Metadata.toJson, record?_node hn]
  cases description <;>
    simp [Fields.get?_cons, get?_nil, optional, orElse, orNull, listOf_strings, readText_str,
      readValue_str, hdescription, Metadata.draft]

theorem read_parameter {q : Parameter} (hr : Readable (k + 2) q.toJson) (ho : q.draft.Ordered)
    (hw : q.draft.WellFormed) : DraftParameter.read ⟨p, k + 2⟩ q.toJson.node = some q.draft := by
  -- Null stands for a field that is left out, so a default must not be null.
  have hnull := default_ne_null hw
  obtain ⟨name, type, required, description, default, allowed⟩ := q
  have hn := (Json.distinct_obj.1 (distinct_parameter ho)).1
  have hrequired : (Json.bool required).node.bool? = some required := by
    cases required <;> rfl
  rw [Parameter.toJson, Json.readable_obj] at hr
  have hdefault (v : Json) (hv : v ∈ default) :
      v.node.isNull = false ∧ readValue ⟨p, k + 1⟩ v.node = some v := by
    have hread : Readable (k + 1) v := hr ("default", v) (by cases hv; simp [optional])
    exact ⟨isNull_node hread (hnull v hv), readValue_node hread (ho.1 v hv)⟩
  have hallowed (vs : List Json) (hvs : vs ∈ allowed) :
      (Json.arr vs).node.isNull = false ∧
        listOf readValue ⟨p, k + 1⟩ (Json.arr vs).node = some vs := by
    have hread : Readable (k + 1) (Json.arr vs) :=
      hr ("enum", .arr vs) (by cases hvs; simp [optional])
    have hitems := Json.readable_arr.1 hread
    have hlist : listOf readValue ⟨p, k + 1⟩ (Json.arr (vs.map fun v => v)).node =
        some (vs.map fun v => v) :=
      listOf_node fun v hv => readValue_node (hitems v hv) (ho.2 vs hvs v hv)
    rw [List.map_id'] at hlist
    exact ⟨isNull_node hread (by simp), hlist⟩
  rw [DraftParameter.read, Parameter.toJson, record?_node hn]
  cases default <;> cases allowed <;>
    simp_all [Fields.get?_cons, get?_nil, optional, orElse, orNull, readText_str, Parameter.draft]

theorem read_effect {e : EffectSpec} (hr : Readable (k + 1) e.toJson) (ho : e.value.Ordered) :
    DraftEffect.read ⟨p, k + 1⟩ e.toJson.node = some e.draft := by
  have hn := (Json.distinct_obj.1 (distinct_effect ho)).1
  rw [EffectSpec.toJson, Json.readable_obj] at hr
  have hvalue : readValue ⟨p, k⟩ e.value.node = some e.value :=
    readValue_node (hr ("value", e.value) (by simp)) ho
  rw [DraftEffect.read, EffectSpec.toJson, record?_node hn]
  simp [Fields.get?_cons, orElse, readText_str, hvalue, EffectSpec.draft]

theorem read_function {f : Function} (hr : Readable (k + 4) f.toJson) (ho : f.draft.Ordered)
    (hw : f.draft.WellFormed) :
    DraftFunction.read ⟨p, k + 4⟩ f.toJson.node = some f.draft := by
  have hn := (Json.distinct_obj.1 (distinct_function ho)).1
  rw [Function.toJson, Json.readable_obj] at hr
  have hps := Json.readable_arr.1
    (hr ("parameters", .arr (f.parameters.map Parameter.toJson)) (by simp))
  have hes := Json.readable_arr.1
    (hr ("effects", .arr (f.effects.map EffectSpec.toJson)) (by simp))
  have hparameters : listOf DraftParameter.read ⟨p, k + 3⟩
      (Json.arr (f.parameters.map Parameter.toJson)).node =
        some (f.parameters.map Parameter.draft) :=
    listOf_node fun q hq => read_parameter (hps _ (List.mem_map_of_mem hq))
      (ho.1 _ (List.mem_map_of_mem hq)) (hw.parameters _ (List.mem_map_of_mem hq))
  have heffects : listOf DraftEffect.read ⟨p, k + 3⟩
      (Json.arr (f.effects.map EffectSpec.toJson)).node = some (f.effects.map EffectSpec.draft) :=
    listOf_node fun e he => read_effect (hes _ (List.mem_map_of_mem he))
      (ho.2 _ (List.mem_map_of_mem he))
  rw [DraftFunction.read, Function.toJson, record?_node hn]
  simp [Fields.get?_cons, orElse, readText_str, listOf_strings, hparameters, heffects,
    Function.draft]

/-- What stands in a document's text is the document as a draft. -/
theorem read_document {d : Document} (hr : Readable (k + 7) d.toJson)
    (ho : d.Ordered) (hw : ∀ e ∈ d.functions, ∀ f ∈ e.2, f.draft.WellFormed) :
    Draft.read ⟨p, k + 7⟩ d.toJson.node = some d.draft := by
  have hjson : d.toJson = .obj [("metadata", d.metadata.toJson),
      ("functionsByPhase",
        .obj (d.functions.map fun e => (e.1.name, .arr (e.2.map Function.toJson)))),
      ("gameData", .obj d.gameData),
      ("promptTemplates", .obj (d.prompts.map fun e => (e.1.name, .str e.2)))] := rfl
  rw [hjson, Json.readable_obj] at hr
  rw [hjson, Draft.read, record?_node (by simp [Fields.names])]
  have hphases := Json.readable_obj.1 (hr _ (.tail _ (.head _)))
  have hdata := Json.readable_obj.1 (hr _ (.tail _ (.tail _ (.head _))))
  have hread : mapOf (listOf DraftFunction.read) ⟨p, k + 6⟩
      (Json.obj (d.functions.map fun e => (e.1.name, .arr (e.2.map Function.toJson)))).node =
      some d.draft.functions := by
    refine mapOf_node fun e he => listOf_node fun f hf => ?_
    have hlist := Json.readable_arr.1 (hphases _ (List.mem_map_of_mem he))
    exact read_function (hlist _ (List.mem_map_of_mem hf)) (ho.functions e he f hf) (hw e he f hf)
  have hgameData : mapOf readValue ⟨p, k + 6⟩
      (Json.obj (d.gameData.map fun m => (m.1, m.2))).node =
      some (Fields.ofList (d.gameData.map fun m => (m.1, m.2))) :=
    mapOf_node fun m hm => readValue_node (hdata m hm) (ho.values m hm)
  have hprompts : mapOf readText ⟨p, k + 6⟩
      (Json.obj (d.prompts.map fun e => (e.1.name, .str e.2))).node = some d.draft.prompts :=
    mapOf_node fun e _ => readText_str _ e.2
  have hpairs : d.gameData.map (fun m => (m.1, m.2)) = d.gameData := List.map_id' _
  rw [hpairs, ho.gameData.ofList_eq] at hgameData
  simp [Fields.get?_cons, orElse, read_metadata, hread, hgameData, hprompts, Document.draft]

theorem sniff_pretty (d : Document) : Format.sniff d.toJson.pretty.toUTF8 = .json := by
  obtain ⟨t, ht⟩ : ∃ t, Json.indented 0 d.toJson = '\x7b' :: t := by
    rw [Document.toJson, Json.indented, Json.block]
    split
    · exact ⟨_, rfl⟩
    · exact ⟨_, rfl⟩
  have hopen : charBytes '\x7b' = ['\x7b'] := charBytes_of_lt (by decide)
  rw [Format.sniff, Json.pretty, byteChars_ofList, ht, textBytes_cons, hopen]
  rfl

section Loaded

variable {format : Format} {bytes : ByteArray} {d : Document}

theorem ordered_of_load (hload : loadAs format bytes = .ok d) : d.Ordered := by
  obtain ⟨draft, hdraft, -, rfl⟩ := loadAs_eq_ok.1 hload
  exact ordered_document (ordered_of_draft? hdraft)

theorem readsBack_iff_of_load (hload : loadAs format bytes = .ok d) :
    d.toJson.ReadsBack ↔ Readable JsonText.grammar.depth d.toJson :=
  Json.readsBack_iff (distinct_document (ordered_of_load hload))

/-- A loaded document whose written text gives back its values is the document that this text
gives: its metadata, functions, game data and prompt templates are the same, and so is its
fingerprint. -/
theorem reload_eq (hload : loadAs format bytes = .ok d) (hreads : d.toJson.ReadsBack) :
    load d.toJson.pretty.toUTF8 = .ok d := by
  have ho : d.Ordered := ordered_of_load hload
  have hreadable : Readable (120 + 7) d.toJson := (readsBack_iff_of_load hload).1 hreads
  obtain ⟨draft, -, hw, rfl⟩ := loadAs_eq_ok.1 hload
  -- The text matters only up to here: it gives the document as a draft.
  have hread :
      Format.json.draft? draft.document.toJson.pretty.toUTF8 = some draft.document.draft := by
    rw [Format.draft?, Format.parse?, JsonText.parse?_pretty]
    exact read_document hreadable ho fun e he f hf => wellFormed_of_mem he hf
  rw [load, sniff_pretty, loadAs_eq_ok]
  exact ⟨_, hread, wellFormed_draft hw, document_draft draft⟩

end Loaded

def innText : String :=
  "\x7b\"metadata\":\x7b\"id\":\"inn\",\"name\":\"Inn\",\"version\":2,\"description\":null\x7d,
   \"functionsByPhase\":\x7b\"Combat\":[\x7b\"id\":\"f\",\"name\":\"sleep\",
   \"parameters\":[\x7b\"name\":\"hours\",\"type\":\"Integer\",\"default\":8\x7d],
   \"effects\":[\x7b\"target\":\"gameState.day\",\"operation\":\"add\",\"value\":1\x7d]\x7d]\x7d,
   \"gameData\":\x7b\"beds\":[4]\x7d\x7d"

def inn : Document where
  metadata := ⟨"inn", "Inn", "2", [], none⟩
  functions := [(.combat, [⟨"f", "sleep", "",
    [⟨"hours", .number, false, "", some (.int 8), none⟩], [], [⟨"gameState.day", .add, .int 1⟩]⟩])]
  gameData := [("beds", .arr [.int 4])]
  prompts := []

def Document.isInn (d : Document) : Bool :=
  match d with
  | ⟨⟨"inn", "Inn", "2", [], none⟩, [(.combat, [⟨"f", "sleep", "",
      [⟨"hours", .number, false, "", some (.int 8), none⟩], [],
      [⟨"gameState.day", .add, .int 1⟩]⟩])],
      [("beds", .arr [.int 4])], []⟩ => true
  | _ => false

theorem eq_inn {d : Document} (h : d.isInn = true) : d = inn := by
  unfold Document.isInn at h
  split at h
  · rfl
  · cases h

theorem load_inn : loadAs .json innText.toUTF8 = .ok inn := by
  have h : (loadAs .json innText.toUTF8).toOption.any Document.isInn = true := by decide +kernel
  obtain ⟨d, hd, hinn⟩ := exists_of_toOption_any h
  rwa [eq_inn hinn] at hd

theorem readable_inn : Readable 127 inn.toJson := by
  have h8 (k : Nat) : Readable k (.int 8) := Json.readable_int (by decide) (by decide)
  have h4 (k : Nat) : Readable k (.int 4) := Json.readable_int (by decide) (by decide)
  have h1 (k : Nat) : Readable k (.int 1) := Json.readable_int (by decide) (by decide)
  simp [inn, Document.toJson, Metadata.toJson, Function.toJson, Parameter.toJson, EffectSpec.toJson,
    optional, strings, Json.readable_obj, Json.readable_arr, Json.readable_bool, Readable.str,
    h8, h4, h1]

theorem reload_eq_inn : loadAs .json innText.toUTF8 = .ok inn ∧ inn.toJson.ReadsBack ∧
    load inn.toJson.pretty.toUTF8 = .ok inn := by
  have hreads : inn.toJson.ReadsBack := (readsBack_iff_of_load load_inn).2 readable_inn
  exact ⟨load_inn, hreads, reload_eq load_inn hreads⟩

end Rulebook.Ruleset
