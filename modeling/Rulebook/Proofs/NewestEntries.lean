import Rulebook.Proofs.Catalogs

namespace Rulebook.Ruleset.Version

variable {a b : String}

theorem compare_eq_iff : Version.compare a b = .eq ↔ a = b := by
  constructor
  · intro h
    exact Std.LawfulEqOrd.eq_of_compare (Ordering.then_eq_eq.1 h).2
  · rintro rfl
    exact Std.ReflCmp.compare_self

theorem gt_of_isLE_of_ne (h : (Version.compare a b).isLE = true) (hne : a ≠ b) :
    Version.compare b a = .gt := by
  rcases Ordering.isLE_iff_eq_lt_or_eq_eq.1 h with hlt | heq
  · exact Std.OrientedCmp.gt_of_lt hlt
  · exact absurd (compare_eq_iff.1 heq) hne

end Rulebook.Ruleset.Version

namespace Rulebook.Catalog

open Ruleset

variable {c : Catalog} {e f : Entry} {id : String}

def all (c : Catalog) : List Entry := c.entries.map Prod.snd

/-- Every entry stands under the text of its id, and no two under one. Neither part of an id is
empty, and its name has no at sign. -/
structure Keyed (c : Catalog) : Prop where
  sorted : Fields.Sorted c.entries
  key : ∀ f ∈ c.entries, f.1 = f.2.id.text
  proper : ∀ e ∈ c.all, e.id.name ≠ "" ∧ e.id.version ≠ "" ∧ '@' ∉ e.id.name.toList

theorem keyed_ofListing (files : Listing) : (ofListing files).Keyed := by
  obtain ⟨hsorted, hlisted⟩ := collect_listed (inWalkOrder files)
  refine ⟨hsorted, fun f hf => (hlisted f hf).1, fun e he => ?_⟩
  obtain ⟨f, hf, rfl⟩ := List.mem_map.1 he
  exact (hlisted f hf).2.id_proper

theorem Keyed.get?_eq_some_iff (h : c.Keyed) {key : String} :
    Fields.get? c.entries key = some e ↔ e ∈ c.all ∧ e.id.text = key := by
  rw [Fields.get?_eq_some_iff h.sorted.nodup_names, all, List.mem_map]
  constructor
  · intro hmem
    exact ⟨⟨_, hmem, rfl⟩, (h.key _ hmem).symm⟩
  · rintro ⟨⟨f, hf, rfl⟩, rfl⟩
    rw [← h.key f hf]
    exact hf

theorem Keyed.eq_of_id (h : c.Keyed) (he : e ∈ c.all) (hf : f ∈ c.all)
    (hname : e.id.name = f.id.name) (hversion : e.id.version = f.id.version) : e = f := by
  have htext : e.id.text = f.id.text := by
    rw [← DocumentId.of_parts (h.proper e he).2.1, hname, hversion,
      DocumentId.of_parts (h.proper f hf).2.1]
  have hget := h.get?_eq_some_iff.2 ⟨he, htext⟩
  exact Option.some.inj (hget.symm.trans (h.get?_eq_some_iff.2 ⟨hf, rfl⟩))

theorem Keyed.find?_text (h : c.Keyed) (he : e ∈ c.all) : c.find? e.id.text = some e := by
  obtain ⟨hname, hversion, -⟩ := h.proper e he
  unfold find?
  rw [DocumentId.parse?_text hname hversion, Option.bind_some,
    h.get?_eq_some_iff.2 ⟨he, rfl⟩]

theorem find?_bare (hid : '@' ∉ id.toList) :
    c.find? id = newest? (c.all.filter fun e => e.id.name == id) := by
  have hparse : DocumentId.parse? id = none := by
    rw [Option.eq_none_iff_forall_ne_some]
    exact fun full hfull => hid (DocumentId.at_mem_of_parse? hfull)
  rw [find?, hparse]
  rfl

theorem newest?_eq_none {es : List Entry} : newest? es = none ↔ es = [] := by
  cases es <;> simp [newest?]

/-- The entry has the name, and its version is above those of all others that have it. -/
def IsNewest (c : Catalog) (id : String) (e : Entry) : Prop :=
  e ∈ c.all ∧ e.id.name = id ∧ ∀ f ∈ c.all, f.id.name = id → f ≠ e →
    Version.compare e.id.version f.id.version = .gt

theorem IsNewest.unique (he : c.IsNewest id e) (hf : c.IsNewest id f) : e = f := by
  by_contra hne
  have hgt := he.2.2 f hf.1 hf.2.1 (Ne.symm hne)
  have hlt := Std.OrientedCmp.lt_of_gt (hf.2.2 e he.1 he.2.1 hne)
  cases hgt.symm.trans hlt

theorem Keyed.isNewest_of_find? (h : c.Keyed) (hid : '@' ∉ id.toList)
    (hfind : c.find? id = some e) : c.IsNewest id e := by
  rw [find?_bare hid] at hfind
  obtain ⟨hmem, hmost⟩ := newest?_eq_some hfind
  obtain ⟨he, hname⟩ := List.mem_filter.1 hmem
  have hname : e.id.name = id := by simpa using hname
  refine ⟨he, hname, fun f hf hfname hne => ?_⟩
  apply Version.gt_of_isLE_of_ne (hmost f (List.mem_filter.2 ⟨hf, by simpa using hfname⟩))
  intro hversion
  exact hne (h.eq_of_id hf he (hfname.trans hname.symm) hversion)

theorem find?_bare_eq_none (hid : '@' ∉ id.toList) :
    c.find? id = none ↔ ∀ e ∈ c.all, e.id.name ≠ id := by
  rw [find?_bare hid, newest?_eq_none, List.filter_eq_nil_iff]
  simp

theorem Keyed.find?_bare_iff (h : c.Keyed) (hid : '@' ∉ id.toList) :
    c.find? id = some e ↔ c.IsNewest id e := by
  refine ⟨h.isNewest_of_find? hid, fun he => ?_⟩
  cases hfind : c.find? id with
  | none => exact absurd he.2.1 ((find?_bare_eq_none hid).1 hfind e he.1)
  | some f => rw [he.unique (h.isNewest_of_find? hid hfind)]

/-- Versions are totally ordered. A name leads to the one entry of that name whose version is above
those of all others, and to none exactly if no entry has it; an id with a version leads to the entry
that has it. -/
theorem newest_entry_found :
    (∀ a b, Version.compare a b = .eq ↔ a = b) ∧
    (∀ a b, Version.compare b a = (Version.compare a b).swap) ∧
    (∀ a b d, (Version.compare a b).isLE = true → (Version.compare b d).isLE = true →
      (Version.compare a d).isLE = true) ∧
    (∀ files, (ofListing files).Keyed) ∧
    ∀ c : Catalog, c.Keyed →
      (∀ id, '@' ∉ id.toList → (∀ e, c.find? id = some e ↔ c.IsNewest id e) ∧
        (c.find? id = none ↔ ∀ e ∈ c.all, e.id.name ≠ id)) ∧
      ∀ e ∈ c.all, c.find? e.id.text = some e :=
  ⟨fun _ _ => Version.compare_eq_iff, fun _ _ => Std.OrientedCmp.eq_swap,
    fun _ _ _ => Std.TransCmp.isLE_trans, keyed_ofListing,
    fun _ h => ⟨fun _ hid => ⟨fun _ => h.find?_bare_iff hid, find?_bare_eq_none hid⟩,
      fun _ he => h.find?_text he⟩⟩

def coreAt (version : String) : Entry :=
  ⟨.of "core" version, "Core rules", "core-" ++ version ++ ".json", .empty⟩

def cores : Catalog := ⟨[("core@10", coreAt "10"), ("core@9", coreAt "9")]⟩

theorem newest_entry_found_cores : cores.Keyed ∧ '@' ∉ "core".toList ∧
    cores.IsNewest "core" (coreAt "10") ∧ cores.find? "core" = some (coreAt "10") ∧
      cores.find? "core@9" = some (coreAt "9") := by
  obtain ⟨-, -, -, -, hfound⟩ := newest_entry_found
  have hat : '@' ∉ "core".toList := by decide
  have hkeyed : cores.Keyed := by
    have hsorted : Fields.Sorted cores.entries :=
      List.pairwise_pair.2 (String.lt_iff_toList_lt.2 (by decide))
    refine ⟨hsorted, ?_, ?_⟩
    · simp [cores, coreAt, DocumentId.of]
    · simp [cores, all, coreAt, DocumentId.name_of hat, DocumentId.version_of hat]
  have hnewest : cores.IsNewest "core" (coreAt "10") := by
    refine ⟨.head _, rfl, fun f hf _ hne => ?_⟩
    obtain rfl | rfl : f = coreAt "10" ∨ f = coreAt "9" := by simpa [cores, all] using hf
    · exact absurd rfl hne
    · decide
  obtain ⟨hbare, htext⟩ := hfound cores hkeyed
  exact ⟨hkeyed, hat, hnewest, ((hbare _ hat).1 _).2 hnewest,
    htext (coreAt "9") (.tail _ (.head _))⟩

end Rulebook.Catalog
