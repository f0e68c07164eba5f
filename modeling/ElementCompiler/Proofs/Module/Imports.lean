import ElementCompiler.Proofs.Module.Compile

set_option autoImplicit false

/-!
Where a module has its declared imports. Those whose closing tag is in the markup are imported by
the view, the others by the code; each of them once, and both in the order of their declaration.
-/

namespace ElementCompiler

open Attempt Text

namespace Import

theorem importMap_injective : Function.Injective importMap := by
  refine List.map_injective_iff.mpr fun x y h => ?_
  obtain ⟨hname, hkind⟩ := Prod.mk.inj h
  exact Prod.ext (Key.text.inj hname) (Json.str.inj hkind)

theorem Describes.unique {keepExtensions : Bool} {d : DeclaredImport} {t u : TextRecord}
    (ht : Describes keepExtensions d t) (hu : Describes keepExtensions d u) : t = u := by
  have hpath : t.path = u.path := Json.str.inj (Except.ok.inj (ht.path.symm.trans hu.path))
  have hname := ht.name
  have hstatement := ht.statement
  rw [hpath] at hname hstatement
  have himports := importMap_injective (ht.imports.symm.trans hu.imports)
  obtain ⟨name, path, template, statement, imports⟩ := t
  obtain rfl := hpath
  obtain rfl := himports
  obtain rfl := Json.str.inj (Except.ok.inj (hname.symm.trans hu.name))
  obtain rfl := Except.ok.inj (hstatement.symm.trans hu.statement)
  obtain rfl : template = u.template := ht.template.trans hu.template.symm
  rfl

theorem statement_ne_nil {imports : Entries Json Key} {target : Json} {s : Text}
    (h : statement imports target = .ok s) : s ≠ [] := by
  rw [statement] at h
  obtain ⟨cs, _, h⟩ := bind_eq_ok.mp h
  split at h
  all_goals
    obtain rfl := Except.ok.inj h
    exact List.cons_ne_nil _ _

section Split

variable {keepExtensions : Bool} {ds : List DeclaredImport} {records : List TextRecord}
  (h : List.Forall₂ (Describes keepExtensions) ds records)
  (hpaired : ∀ t ∈ records, ∀ s ∈ t.texts, Json.WellPaired s) (markup : Text)
include h hpaired

omit h hpaired in
theorem codeStatements_record (r : ImportRecord) (entries : List ChannelEntry) :
    codeStatements markup (.record r :: entries) =
      if !r.statement.isEmpty && !r.isCustomElement markup then
        r.statement :: codeStatements markup entries
      else codeStatements markup entries := by
  rw [codeStatements, List.filterMap_cons]
  dsimp only
  split <;> rename_i heq
  · rw [if_neg fun hc => by rw [if_pos hc] at heq; cases heq]
    rfl
  · split at heq
    next hc =>
      rw [if_pos hc, ← Option.some.inj heq]
      rfl
    next => cases heq

end Split
end Import

namespace Module

open Import

variable {o : CompileOptions} {c : Component}

/-- An assembled module, with the records of its imports as they were read off the channel. -/
theorem records_of_assemble (ho : IsPlain o) (hc : ResolvesTexts c) {m : Members}
    {parameters outs valueRefs : List Text} {a : Assembled}
    (h : assemble o m parameters outs valueRefs c = .ok a) :
    ∃ body records extra, viewBody c = .ok body ∧
      List.Forall₂ (Describes o.preserveFileExtensions.isGiven)
        (c.imports.filter (isKept o.preserveImports.isGiven)) records ∧
      classify (records.map TextRecord.readBack) body.text extra = .ok a.classification ∧
      a.parts.codeImports = codeStatements body.text (records.map fun t => .record t.readBack) ∧
      a.parts.view = assembleView o.targetVersion
        (templateImports o.targetVersion.importKeyword a.classification.customElements) body.text := by
  obtain ⟨channel, extra, body, found, bridge, bindable, name, ss, hchannel, _, hbody, hfound, _, _,
    _, _, rfl⟩ := assemble_eq_ok.mp h
  have hmapper : (importSettings o).mapper = some structuredMapper := by
    rw [importSettings, ho.importMapper]
    rfl
  rw [importChannel] at hchannel
  obtain ⟨used, _, hchannel⟩ := bind_eq_ok.mp hchannel
  obtain ⟨records, exports, hrecords, _, hparse⟩ := exists_channel hc hmapper used
  obtain rfl := Except.ok.inj (hparse.symm.trans hchannel)
  rw [records_readBack] at hfound
  exact ⟨body, records, _, hbody, hrecords, hfound, rfl, rfl⟩

theorem classify_eq_ok {records : List ImportRecord} {view : Text} {extra : List Key}
    {found : Classification} (h : classify records view extra = .ok found) :
    found.customElements = records.filter (ImportRecord.isCustomElement view) ∧
      found.codeImports = records.filter (fun r => !r.isCustomElement view) ∧
      ∀ name ∈ found.classFields, name ∉ takenNames found.customElements := by
  rw [classify] at h
  obtain ⟨used, _, h⟩ := bind_eq_ok.mp h
  obtain rfl := Except.ok.inj h
  refine ⟨rfl, rfl, fun name hname hmem => ?_⟩
  have hfree := (List.mem_filter.mp hname).2
  rw [List.contains, List.elem_eq_true_of_mem hmem] at hfree
  cases hfree

def leaf (name : Text) : Node := ⟨.str name, [], [], [], .empty, none, []⟩

/-- A component with imports of all kinds: of an element, of a name, twice, and for its effects. -/
def shop : Component where
  name := .str "Shop"
  children := [leaf "Button"]
  state := []
  props := []
  propsTypeRef := .null
  defaultProps := []
  refs := []
  hooks := ⟨none, none, [], none⟩
  context := ⟨[], []⟩
  imports := [⟨.str "./button.lite", importMap [("Button", "default")]⟩,
    ⟨.str "./money", importMap [("format", "format")]⟩, ⟨.str "./shop.css", importMap []⟩,
    ⟨.str "./money", importMap [("format", "format")]⟩]
  exports := []
  metadata := []
  types := []
  css := .null

theorem shop_resolves : ResolvesTexts shop := by
  have hname : AreClear [("format", "format")] :=
    List.forall_mem_singleton.mpr ⟨by decide, by unfold IsClear; decide, by unfold IsClear; decide⟩
  refine ⟨?_, by rintro _ ⟨⟩⟩
  simp only [shop, List.forall_mem_cons]
  refine ⟨⟨_, _, rfl, rfl, by unfold IsClear; decide, List.forall_mem_singleton.mpr ?_⟩,
    ⟨_, _, rfl, rfl, by unfold IsClear; decide, hname⟩,
    ⟨_, _, rfl, rfl, by unfold IsClear; decide, by rintro _ ⟨⟩⟩,
    ⟨_, _, rfl, rfl, by unfold IsClear; decide, hname⟩, by rintro _ ⟨⟩⟩
  exact ⟨by decide, by unfold IsClear; decide, by unfold IsClear; decide⟩

theorem shop_isTyped : shop.IsTyped := by
  refine Component.IsBare.isTyped ⟨rfl, rfl, rfl, rfl, rfl⟩ (List.forall_mem_singleton.mpr ?_)
    (List.forall_mem_nil _) (List.forall_mem_nil _) shop_resolves
  exact ⟨⟨_, rfl⟩, List.forall_mem_nil _, List.forall_mem_nil _⟩

theorem shop_plain : ∀ domRefs, shop.domRefs = .ok domRefs →
    ∀ f ∈ shop.refFields domRefs, CodePoint.char '\\' ∉ f.1 :=
  Component.forall_refFields_of_none rfl rfl

end Module
end ElementCompiler
