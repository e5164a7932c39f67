import Rulebook.Proofs.DocumentIds
import Rulebook.Proofs.Sessions
import Rulebook.Proofs.Versions

namespace Rulebook.Source.Node

variable {α β : Type}

theorem mapM_append_eq_some {f : α → Option β} {xs ys : List α} {zs : List β} :
    (xs ++ ys).mapM f = some zs ↔
      ∃ us vs, xs.mapM f = some us ∧ ys.mapM f = some vs ∧ us ++ vs = zs := by
  simp [List.mapM_append, Option.bind_eq_some_iff]

theorem record?_append {g g₁ g₂ : Grammar} {n : Node} {names more : List String}
    {fs₁ fs₂ : List (Option Node)} (h₁ : n.record? g names = some (g₁, fs₁))
    (h₂ : n.record? g (names ++ more) = some (g₂, fs₂)) : g₁ = g₂ ∧ fs₁ <+: fs₂ := by
  cases n with
  | list items =>
    simp only [record?] at h₁ h₂
    split at h₁
    · cases h₁
    · next hc₁ =>
      split at h₂
      · cases h₂
      · cases h₁
        cases h₂
        simp only [Bool.or_eq_true, decide_eq_true_eq, not_or, not_lt] at hc₁
        refine ⟨rfl, ?_⟩
        rw [List.prefix_append_right_inj]
        exact ⟨List.replicate more.length none, by
          rw [← List.replicate_add, List.length_append]
          congr 1
          omega⟩
  | scalar _ | map _ | special _ =>
    simp only [record?, Option.bind_eq_bind, Option.bind_eq_some_iff] at h₁ h₂
    obtain ⟨⟨_, es⟩, hm, fields, hf, he⟩ := h₁
    obtain ⟨⟨_, es'⟩, hm', fields', hf', he'⟩ := h₂
    rw [hm] at hm'
    cases hm'
    cases he
    cases he'
    obtain ⟨us, vs, hu, -, rfl⟩ := mapM_append_eq_some.1 hf'
    rw [hf] at hu
    cases hu
    exact ⟨rfl, List.prefix_append _ _⟩

end Rulebook.Source.Node

namespace Rulebook.Ruleset

open Source

structure DraftMetadata.Begins (m : DraftMetadata) (g : Node.Grammar)
    (id name version : Option Node) : Prop where
  id : orElse "" (readText g) id = some m.id
  name : orElse "" (readText g) name = some m.name
  version : orElse .null (readValue g) version = some m.version

variable {g : Node.Grammar} {n : Node}

theorem metadata_of_read {m : DraftMetadata} (h : DraftMetadata.read g n = some m) :
    ∃ g' id name version rest, n.record? g ["id", "name", "version", "tags", "description"] =
      some (g', id :: name :: version :: rest) ∧ m.Begins g' id name version := by
  rw [DraftMetadata.read, Option.bind_eq_bind, Option.bind_eq_some_iff] at h
  obtain ⟨⟨g', fields⟩, hr, h⟩ := h
  split at h
  · next heq =>
    cases heq
    simp only [Option.bind_eq_bind, Option.bind_eq_some_iff, Option.pure_def,
      Option.some.injEq] at h
    obtain ⟨id, hid, name, hname, version, hversion, _, -, _, -, rfl⟩ := h
    exact ⟨_, _, _, _, _, hr, hid, hname, hversion⟩
  · cases h

theorem metadata_of_readHeader {m : DraftMetadata} (h : DraftMetadata.readHeader g n = some m) :
    ∃ g' g'' metadata id name version, n.record? g ["metadata"] = some (g', [some metadata]) ∧
      metadata.record? g' ["id", "name", "version"] = some (g'', [id, name, version]) ∧
      m.Begins g'' id name version := by
  rw [DraftMetadata.readHeader, Option.bind_eq_bind, Option.bind_eq_some_iff] at h
  obtain ⟨⟨g', fields⟩, hr, h⟩ := h
  split at h
  · next heq =>
    cases heq
    simp only [Option.bind_eq_bind, Option.bind_eq_some_iff] at h
    obtain ⟨metadata, rfl, ⟨g'', fields⟩, hm, h⟩ := h
    split at h
    · next heq =>
      cases heq
      simp only [Option.bind_eq_some_iff, Option.pure_def, Option.some.injEq] at h
      obtain ⟨id, hid, name, hname, version, hversion, rfl⟩ := h
      exact ⟨_, _, _, _, _, _, hr, hm, hid, hname, hversion⟩
    · cases h
  · cases h

theorem metadata_of_draft {d : Draft} (h : Draft.read g n = some d) :
    ∃ g' metadata rest,
      n.record? g ["metadata", "functionsByPhase", "gameData", "promptTemplates"] =
        some (g', some metadata :: rest) ∧ DraftMetadata.read g' metadata = some d.metadata := by
  rw [Draft.read, Option.bind_eq_bind, Option.bind_eq_some_iff] at h
  obtain ⟨⟨g', fields⟩, hr, h⟩ := h
  split at h
  · next heq =>
    cases heq
    simp only [Option.bind_eq_bind, Option.bind_eq_some_iff, Option.pure_def,
      Option.some.injEq] at h
    obtain ⟨metadata, rfl, m, hm, _, -, _, -, _, -, rfl⟩ := h
    exact ⟨_, _, _, hr, hm⟩
  · cases h

/-- What is read of the metadata alone is what the whole document has there. -/
theorem header_eq {m : DraftMetadata} {d : Draft} (hm : DraftMetadata.readHeader g n = some m)
    (hd : Draft.read g n = some d) : m.id = d.metadata.id ∧ m.version = d.metadata.version := by
  obtain ⟨g₁, g₂, metadata, id, name, version, hr, hrm, hb⟩ := metadata_of_readHeader hm
  obtain ⟨g₁', metadata', rest, hr', hrd⟩ := metadata_of_draft hd
  obtain ⟨rfl, hfields⟩ := Node.record?_append hr hr'
  obtain ⟨rfl, -⟩ : metadata = metadata' ∧ [] <+: rest := by simpa using hfields
  obtain ⟨g₂', id', name', version', rest', hrm', hb'⟩ := metadata_of_read hrd
  obtain ⟨rfl, hfields⟩ := Node.record?_append hrm hrm'
  obtain ⟨rfl, rfl, rfl⟩ : id = id' ∧ name = name' ∧ version = version' := by simpa using hfields
  exact ⟨Option.some.inj (hb.id.symm.trans hb'.id),
    Option.some.inj (hb.version.symm.trans hb'.version)⟩

end Rulebook.Ruleset

namespace Rulebook.Catalog

open Ruleset

theorem entryOf?_eq_some {path : String} {source : ByteArray} {e : Entry}
    (h : entryOf? path source = some e) :
    ∃ m, (Format.forPath path source).header? source = some m ∧
      (m.id ≠ "" ∧ m.versionText ≠ "" ∧ '@' ∉ m.id.toList) ∧
      e = ⟨.of m.id m.versionText, m.name, path, source⟩ := by
  rw [entryOf?, Option.bind_eq_bind, Option.bind_eq_some_iff] at h
  obtain ⟨m, hm, h⟩ := h
  split at h
  · cases h
  · next hc =>
    cases h
    simp only [Bool.or_eq_true, not_or, List.contains_iff_mem, String.isEmpty_iff] at hc
    exact ⟨m, hm, ⟨hc.1.1, hc.1.2, hc.2⟩, rfl⟩

def Entry.Listed (e : Entry) : Prop := entryOf? e.path e.source = some e

variable {e : Entry} {d : Document}

theorem listed_of_entryOf? {path : String} {source : ByteArray}
    (h : entryOf? path source = some e) : e.Listed := by
  obtain ⟨m, -, -, rfl⟩ := entryOf?_eq_some h
  exact h

theorem Entry.Listed.id_proper (h : e.Listed) :
    e.id.name ≠ "" ∧ e.id.version ≠ "" ∧ '@' ∉ e.id.name.toList := by
  obtain ⟨m, -, ⟨hid, hversion, hat⟩, he⟩ := entryOf?_eq_some h
  rw [he]
  dsimp only
  rw [DocumentId.name_of hat, DocumentId.version_of hat]
  exact ⟨hid, hversion, hat⟩

theorem Entry.Listed.id_eq (h : e.Listed) (hload : e.load = .ok d) : d.id = e.id := by
  obtain ⟨m, hm, -, he⟩ := entryOf?_eq_some h
  obtain ⟨draft, hdraft, -, rfl⟩ := loadAs_eq_ok.1 hload
  simp only [Format.header?, Format.draft?, Option.bind_eq_bind, Option.bind_eq_some_iff]
    at hm hdraft
  obtain ⟨n, hn, hm⟩ := hm
  obtain ⟨n', hn', hdraft⟩ := hdraft
  cases hn.symm.trans hn'
  obtain ⟨hid, hversion⟩ := header_eq hm hdraft
  rw [he, Document.id, Draft.document, DraftMetadata.checked]
  simp only [DraftMetadata.versionText, hid, hversion]

/-- The entries of a directory are kept in order, each under the text of its id. -/
theorem collect_listed (files : Listing) : (collect files).Sorted ∧
    ∀ f ∈ collect files, f.1 = f.2.id.text ∧ f.2.Listed := by
  rw [collect]
  have hbefore : Fields.Sorted ([] : Fields Entry) ∧
      ∀ f ∈ ([] : Fields Entry), f.1 = f.2.id.text ∧ f.2.Listed := ⟨.nil, by simp⟩
  generalize ([] : Fields Entry) = entries at hbefore ⊢
  generalize files.filter (isCandidate ·.1) = files
  induction files generalizing entries with
  | nil => exact hbefore
  | cons file files ih =>
    rw [List.foldl_cons]
    apply ih
    dsimp only
    split
    · next e he =>
      split
      · exact hbefore
      · refine ⟨Fields.sorted_insert hbefore.1 _ _, fun f hf => ?_⟩
        rcases Fields.mem_of_mem_insert hf with rfl | hf
        · exact ⟨rfl, listed_of_entryOf? he⟩
        · exact hbefore.2 f hf
    · exact hbefore

variable {files : Listing} {id : String}

/-- An id with a version leads to the entry that has it, a name to the newest entry of that name. -/
theorem find?_eq_some (h : (ofListing files).find? id = some e) :
    (∃ f ∈ (ofListing files).entries, f.2 = e) ∧
      if '@' ∈ id.toList then e.id.text = id
      else e.id.name = id ∧ ∀ f ∈ (ofListing files).entries, f.2.id.name = id → AtMost f.2 e := by
  have hlisted (f : String × Entry) (hf : f ∈ (ofListing files).entries) :
      f.1 = f.2.id.text ∧ f.2.Listed := (collect_listed _).2 f hf
  unfold find? at h
  split at h
  · next e' he =>
    cases h
    obtain ⟨full, hparse, hget⟩ := Option.bind_eq_some_iff.1 he
    have hmem := Fields.mem_of_get? hget
    rw [if_pos (DocumentId.at_mem_of_parse? hparse), ← (hlisted _ hmem).1]
    exact ⟨⟨_, hmem, rfl⟩, DocumentId.text_of_parse? hparse⟩
  · obtain ⟨hmem, hmost⟩ := newest?_eq_some h
    obtain ⟨hmem, hname⟩ := List.mem_filter.1 hmem
    obtain ⟨f, hf, rfl⟩ := List.mem_map.1 hmem
    have hname : f.2.id.name = id := by simpa using hname
    have hno : '@' ∉ id.toList := hname ▸ (hlisted f hf).2.id_proper.2.2
    rw [if_neg hno]
    refine ⟨⟨f, hf, rfl⟩, hname, fun f' hf' hname' => hmost f'.2 ?_⟩
    exact List.mem_filter.2 ⟨List.mem_map_of_mem hf', by simpa using hname'⟩

end Rulebook.Catalog

namespace Rulebook.Session

open Ruleset Call

namespace Game

variable {g g' : Game} {op : Operation} {outcome : Outcome}

theorem Step.catalog_eq (h : g.Step op g' outcome) : g'.session.catalog = g.session.catalog := by
  cases h with
  | activates _ hs | activateFails hs =>
    rcases hs with rfl | ⟨d, rfl⟩
    · rfl
    · rfl
  | loads | loadFails | setsPhase | invokes | takes => rfl

theorem run_catalog (evaluate : Evaluator) (g : Game) (ops : List Operation) :
    (g.run evaluate ops).1.session.catalog = g.session.catalog := by
  induction ops generalizing g with
  | nil => rfl
  | cons op ops ih => exact (ih _).trans (step_answer evaluate g op).catalog_eq

end Game

variable {s s' : Session} {id : String} {d : Document} {files : Listing}

theorem id_of_loadById (hcatalog : s.catalog = some (.ofListing files))
    (h : s.loadById id = .ok (d, s')) :
    ∃ e, (Catalog.ofListing files).find? id = some e ∧ d.id = e.id := by
  obtain ⟨e, he, hload, -⟩ := loadById_eq_ok.1 h
  rw [hcatalog, Option.bind_some] at he
  obtain ⟨⟨f, hf, rfl⟩, -⟩ := Catalog.find?_eq_some he
  exact ⟨f.2, he, ((Catalog.collect_listed _).2 _ hf).2.id_eq hload⟩

/-- The document that an id leads to: the one with this id if it has a version, and otherwise the
newest of this name in the catalog. -/
def LeadsTo (c : Catalog) (id : String) (d : Document) : Prop :=
  if '@' ∈ id.toList then d.id.text = id
  else d.id.name = id ∧ (∃ f ∈ c.entries, f.2.id = d.id) ∧
    ∀ f ∈ c.entries, f.2.id.name = id → (Version.compare f.2.id.version d.id.version).isLE = true

theorem leadsTo_of_find? {e : Catalog.Entry} (h : (Catalog.ofListing files).find? id = some e)
    (hd : d.id = e.id) : LeadsTo (.ofListing files) id d := by
  obtain ⟨⟨f, hf, rfl⟩, hfound⟩ := Catalog.find?_eq_some h
  unfold LeadsTo
  rw [hd]
  split
  · next hat => rwa [if_pos hat] at hfound
  · next hat =>
    rw [if_neg hat] at hfound
    exact ⟨hfound.1, ⟨f, hf, rfl⟩, hfound.2⟩

theorem setActive_of_activate {roots : List String} {a : Active}
    (h : s.activate roots id = (.ok a, s')) :
    ∃ key ready, s.Readies id key ready ∧ ready.setActive roots key = .ok (a, s') := by
  rcases activate_cases s roots id with
    ⟨e, he⟩ | ⟨key, ready, hr, ⟨e, -, he⟩ | ⟨a', s'', hs, ha⟩⟩
  · cases h.symm.trans he
  · cases h.symm.trans he
  · cases h.symm.trans ha
    exact ⟨key, ready, hr, hs⟩

theorem leadsTo_of_activate {roots : List String} {a : Active}
    (hcatalog : s.catalog = some (.ofListing files))
    (hkeyed : ∀ key d, Fields.get? s.loaded key = some d → d.id.text = key)
    (h : s.activate roots id = (.ok a, s')) : LeadsTo (.ofListing files) id a.document := by
  obtain ⟨key, ready, hr, hs⟩ := setActive_of_activate h
  obtain ⟨d, _, hget, -, rfl, -⟩ := setActive_eq_ok.1 hs
  cases hr with
  | loaded hid hl =>
    rw [LeadsTo, if_pos (DocumentId.at_mem_of_parse? hid), hkeyed _ d hget,
      DocumentId.text_of_parse? hid]
  | catalogued hd =>
    obtain ⟨e, he, hde⟩ := id_of_loadById hcatalog hd
    obtain ⟨_, -, -, rfl⟩ := loadById_eq_ok.1 hd
    rw [add, Fields.get?_insert_self] at hget
    cases hget
    exact leadsTo_of_find? he hde

/-- Whatever was loaded before, an id that loads a document of the catalog loads the one that is
listed there, and an id that makes a document active makes the one active that it leads to. -/
theorem id_leads_to_document (evaluate : Evaluator) (files : Listing) (state : State.Store)
    (ops : List Operation) (id : String) :
    let s := ((Game.start (some (.ofListing files)) state).run evaluate ops).1.session
    (∀ d s', s.loadById id = .ok (d, s') →
      ∃ e, (Catalog.ofListing files).find? id = some e ∧ d.id = e.id) ∧
    ∀ roots a s', s.activate roots id = (.ok a, s') →
      s'.active = some a ∧ LeadsTo (.ofListing files) id a.document := by
  intro s
  have hcatalog : s.catalog = some (.ofListing files) := Game.run_catalog evaluate _ ops
  have hkeyed := ((Game.follows_start (some (.ofListing files)) state).run evaluate ops).keyed
  refine ⟨fun d s' h => id_of_loadById hcatalog h, fun roots a s' h => ⟨?_, ?_⟩⟩
  · obtain ⟨_, _, -, hs⟩ := setActive_of_activate h
    obtain ⟨_, _, -, -, -, rfl⟩ := setActive_eq_ok.1 hs
    rfl
  · exact leadsTo_of_activate hcatalog hkeyed h

def shelf : Listing := [("new.json", Game.edition "10"), ("old.json", Game.edition "9")]

theorem ofListing_shelf : Catalog.ofListing shelf = ⟨Catalog.collect shelf⟩ := by
  have horder : Catalog.inWalkOrder shelf = shelf := by
    apply List.mergeSort_of_pairwise
    decide +kernel
  rw [Catalog.ofListing, horder]

theorem id_leads_to_document_shelf :
    let s := ((Game.start (some (.ofListing shelf)) Game.firstDay).run Game.granting
      [.activate "rules@9"]).1.session
    (∃ d s', s.loadById "rules" = .ok (d, s') ∧ d.id.text = "rules@10" ∧
      ∃ e, (Catalog.ofListing shelf).find? "rules" = some e ∧ d.id = e.id) ∧
    ∃ a s', s.activate Game.firstDay.names "rules" = (.ok a, s') ∧ s'.active = some a ∧
      a.generation = 2 ∧ LeadsTo (.ofListing shelf) "rules" a.document := by
  obtain ⟨hload, hactivate⟩ := id_leads_to_document Game.granting shelf Game.firstDay
    [.activate "rules@9"] "rules"
  constructor
  · have hloaded : (((Game.start (some (.ofListing shelf)) Game.firstDay).run Game.granting
        [.activate "rules@9"]).1.session.loadById "rules").toOption.any
          (fun x => x.1.id.text == "rules@10") = true := by
      rw [ofListing_shelf]
      decide +kernel
    obtain ⟨⟨d, s'⟩, hd, hid⟩ := exists_of_toOption_any hloaded
    exact ⟨d, s', hd, beq_iff_eq.1 hid, hload d s' hd⟩
  · have hactivated : (((Game.start (some (.ofListing shelf)) Game.firstDay).run Game.granting
        [.activate "rules@9"]).1.session.activate Game.firstDay.names "rules").1.toOption.any
          (fun a => a.generation == 2) = true := by
      rw [ofListing_shelf]
      decide +kernel
    obtain ⟨a, ha, hgen⟩ := exists_of_toOption_any hactivated
    obtain ⟨hactive, hleads⟩ := hactivate _ a _ (Prod.ext ha rfl)
    exact ⟨a, _, Prod.ext ha rfl, hactive, beq_iff_eq.1 hgen, hleads⟩

end Rulebook.Session
