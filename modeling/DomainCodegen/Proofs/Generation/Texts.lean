import DomainCodegen.Proofs.Artifact.Imports
import DomainCodegen.Proofs.Generation.Fresh
import DomainCodegen.Proofs.Members

/-!
# Texts by qualified names

The texts of a plan are kept by the qualified names of their artifacts. When artifacts are listed,
packages and classes are compared, and two artifacts that differ there can still have one qualified
name. But then a class has a dot, which no class that is rendered has
(`qualifiedName_inj_of_render`). So every artifact has an entry of its own, with its own text
(`Plan.renderAll_entries`).
-/

namespace DomainCodegen

namespace Artifact

variable {config : Config} {a b : Artifact} {artifacts : List Artifact}
  {texts entries : List (String × String)}

/-! ## Qualified names -/

/-- A qualified name tells the package from the class, unless the class has a dot. -/
theorem key_eq_of_qualifiedName_eq (ha : '.' ∉ a.className.toList) (hb : '.' ∉ b.className.toList)
    (h : a.qualifiedName = b.qualifiedName) : a.key = b.key := by
  have hclass : a.className = b.className := by
    have hsimple := congrArg Name.simpleName h
    unfold qualifiedName at hsimple
    rwa [Name.simpleName_qualified ha, Name.simpleName_qualified hb] at hsimple
  exact Prod.ext ((qualifiedName_eq_iff hclass).mp h) hclass

/-- Of the artifacts that are rendered, no two with different keys have one qualified name. -/
theorem qualifiedName_inj_of_render (ha : ∃ text, a.render config = .ok text)
    (hb : ∃ text, b.render config = .ok text) (h : a.qualifiedName = b.qualifiedName) :
    a.key = b.key := by
  obtain ⟨_, ha⟩ := ha
  obtain ⟨_, hb⟩ := hb
  exact key_eq_of_qualifiedName_eq (isStem_of_render ha).dot_notMem
    (isStem_of_render hb).dot_notMem h

/-- Under names of one's own choice the entity and the value object of the example have one
qualified name. The entity is not rendered, as its class has a dot. -/
example : ((Schema.sampleTree.node.artifacts
      { valuePackage := "Order", entitySuffix := ".OrderEntity" } "shop").map fun a =>
        (a.key, a.qualifiedName)) =
    [(("shop", "Order.OrderEntity"), "shop.Order.OrderEntity"),
      (("shop.Order", "OrderId"), "shop.Order.OrderId"),
      (("shop.Order", "OrderSN"), "shop.Order.OrderSN"),
      (("shop.Order", "OrderEntity"), "shop.Order.OrderEntity")] := by
  decide

/-! ## Entries -/

/-- The entry of an artifact: its qualified name with its own text. -/
def HasEntry (config : Config) (a : Artifact) (entry : String × String) : Prop :=
  entry.1 = a.qualifiedName ∧ a.render config = .ok entry.2

theorem renderOnto_eq_ok_iff {result : List (String × String)} :
    renderOnto config texts artifacts = .ok result ↔
      ∃ entries, List.Forall₂ (HasEntry config) artifacts entries ∧
        result = entries.foldl (fun all e => Members.set e.1 e.2 all) texts := by
  induction artifacts generalizing texts with
  | nil =>
    rw [renderOnto]
    constructor
    · intro h
      exact ⟨[], .nil, (Except.ok.inj h).symm⟩
    · rintro ⟨entries, h, rfl⟩
      cases h
      rfl
  | cons a rest ih =>
    rw [renderOnto]
    cases ha : a.render config with
    | error e =>
      refine ⟨nofun, ?_⟩
      rintro ⟨entries, h, -⟩
      cases h with
      | cons he =>
        rw [he.2] at ha
        cases ha
    | ok text =>
      rw [ih]
      constructor
      · rintro ⟨entries, h, rfl⟩
        exact ⟨(a.qualifiedName, text) :: entries, .cons ⟨rfl, ha⟩ h, rfl⟩
      · rintro ⟨entries, h, rfl⟩
        cases h with
        | @cons _ entry _ others he h =>
          obtain ⟨name, own⟩ := entry
          obtain ⟨rfl, hown⟩ : name = a.qualifiedName ∧ a.render config = .ok own := he
          rw [ha] at hown
          cases hown
          exact ⟨others, h, rfl⟩

theorem names_of_entries (h : List.Forall₂ (HasEntry config) artifacts entries) :
    entries.map Prod.fst = artifacts.map qualifiedName := by
  induction h with
  | nil => rfl
  | cons he _ ih => rw [List.map_cons, List.map_cons, he.1, ih]

theorem exists_entry (h : List.Forall₂ (HasEntry config) artifacts entries) :
    ∀ a ∈ artifacts, ∃ entry ∈ entries, HasEntry config a entry := by
  induction h with
  | nil => exact nofun
  | cons he _ ih =>
    refine List.forall_mem_cons.mpr ⟨⟨_, List.mem_cons_self, he⟩, fun a ha => ?_⟩
    obtain ⟨entry, hm, hentry⟩ := ih a ha
    exact ⟨entry, List.mem_cons_of_mem _ hm, hentry⟩

theorem exists_entries (h : ∀ a ∈ artifacts, ∃ text, a.render config = .ok text) :
    ∃ entries, List.Forall₂ (HasEntry config) artifacts entries := by
  induction artifacts with
  | nil => exact ⟨[], .nil⟩
  | cons a rest ih =>
    obtain ⟨⟨text, ha⟩, hrest⟩ := List.forall_mem_cons.mp h
    obtain ⟨entries, hentries⟩ := ih hrest
    exact ⟨(a.qualifiedName, text) :: entries, .cons ⟨rfl, ha⟩ hentries⟩

/-- Artifacts with different keys have entries with different names. -/
theorem nodup_names_of_entries (hk : (artifacts.map key).Nodup)
    (h : List.Forall₂ (HasEntry config) artifacts entries) : (entries.map Prod.fst).Nodup := by
  have hrender : ∀ a ∈ artifacts, ∃ text, a.render config = .ok text := by
    intro a ha
    obtain ⟨entry, -, he⟩ := exists_entry h a ha
    exact ⟨entry.2, he.2⟩
  rw [names_of_entries h, List.Nodup, List.pairwise_map]
  refine (List.pairwise_map.mp hk).imp_of_mem fun ha hb hne hname => hne ?_
  exact qualifiedName_inj_of_render (hrender _ ha) (hrender _ hb) hname

/-- The texts of artifacts with different keys are their entries. -/
theorem renderAll_eq_ok_iff (hk : (artifacts.map key).Nodup) :
    renderAll config artifacts = .ok texts ↔ List.Forall₂ (HasEntry config) artifacts texts := by
  rw [renderAll, renderOnto_eq_ok_iff]
  have hset {entries} (h : List.Forall₂ (HasEntry config) artifacts entries) :
      entries.foldl (fun all e => Members.set e.1 e.2 all) [] = entries :=
    Members.foldl_set (nodup_names_of_entries hk h)
  constructor
  · rintro ⟨entries, h, rfl⟩
    rwa [hset h]
  · intro h
    exact ⟨texts, h, (hset h).symm⟩

end Artifact

/-! ## Texts of a plan -/

variable {config : Config} {plan : Plan} {artifacts : List Artifact}

/-- The texts of a plan are there exactly if all its artifacts are rendered, and then they are one
entry for each artifact, in order, under different names. A look-up of a qualified name finds the
text of the artifact itself, and artifacts that are rendered have one qualified name only if they
have one package and one class. -/
theorem Plan.renderAll_entries (ha : plan.artifacts config = .ok artifacts) :
    (∀ texts, Artifact.renderAll config artifacts = .ok texts ↔
      List.Forall₂ (Artifact.HasEntry config) artifacts texts) ∧
    (∀ texts, Artifact.renderAll config artifacts = .ok texts →
      (texts.map Prod.fst).Nodup ∧
      ∀ a ∈ artifacts, ∃ text, a.render config = .ok text ∧
        texts.lookup a.qualifiedName = some text) ∧
    ∀ a ∈ artifacts, ∀ b ∈ artifacts, (∃ text, a.render config = .ok text) →
      (∃ text, b.render config = .ok text) → a.key ≠ b.key →
        a.qualifiedName ≠ b.qualifiedName := by
  obtain ⟨-, hk⟩ := Schema.Tree.artifacts_eq_ok (artifacts_eq_ok ha)
  refine ⟨fun texts => Artifact.renderAll_eq_ok_iff hk, fun texts h => ?_,
    fun a _ b _ hra hrb hne hname => hne (Artifact.qualifiedName_inj_of_render hra hrb hname)⟩
  have hentries := (Artifact.renderAll_eq_ok_iff hk).mp h
  have hnodup := Artifact.nodup_names_of_entries hk hentries
  refine ⟨hnodup, fun a hm => ?_⟩
  obtain ⟨⟨name, text⟩, hentry, rfl, htext⟩ := Artifact.exists_entry hentries a hm
  exact ⟨text, htext, (Members.lookup_eq_some_iff_mem hnodup).mpr hentry⟩

open scoped Surrogates in
theorem Plan.renderAll_entries_sample :
    ∃ texts, Artifact.renderAll {} (Schema.sampleTree.node.artifacts {} "shop") = .ok texts ∧
      texts.map Prod.fst = ["shop.OrderEntity", "shop.valueobject.OrderId",
        "shop.valueobject.OrderSN", "shop.valueobject.OrderEntity"] ∧
      ∀ a ∈ Schema.sampleTree.node.artifacts {} "shop", ∃ text, a.render {} = .ok text ∧
        texts.lookup a.qualifiedName = some text := by
  have ha : Plan.artifacts {} ⟨"shop", Schema.sampleTree⟩ =
      .ok (Schema.sampleTree.node.artifacts {} "shop") := rfl
  have hkinds : ∀ a ∈ Schema.sampleTree.node.artifacts {} "shop", a.kind ≠ .enumeration := by
    decide
  have hrender : ∀ a ∈ Schema.sampleTree.node.artifacts {} "shop",
      ∃ text, a.render {} = .ok text := by
    intro a hm
    obtain ⟨file, hfile⟩ := (Schema.wellFormed_of_read Schema.read_sample).exists_file hm
      (Artifact.not_hasFaultyVariant (hkinds a hm))
    exact ⟨_, Artifact.render_eq_ok (Artifact.file_eq_ok.mp hfile)⟩
  obtain ⟨texts, hentries⟩ := Artifact.exists_entries hrender
  obtain ⟨htexts, hown, -⟩ := Plan.renderAll_entries ha
  have hall := (htexts texts).mpr hentries
  exact ⟨texts, hall, (Artifact.names_of_entries hentries).trans (by decide), (hown texts hall).2⟩

end DomainCodegen
