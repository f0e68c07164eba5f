import ElementCompiler.Component.Validation
import ElementCompiler.Proofs.Component.Tree
import ElementCompiler.Proofs.Json.Document
import Mathlib.Data.List.Basic

set_option autoImplicit false

/-!
A valid component that was read is read back from what is written for it.
-/

namespace ElementCompiler

open Attempt

/-- What a valid component names: the contexts it reads and writes, and the sources it imports. -/
theorem named_of_validate {c : Component} (h : c.validate = .ok ()) :
    (∀ r ∈ c.context.reads, r.2.name.isGiven = true) ∧
      (∀ w ∈ c.context.writes, w.name.isGiven = true) ∧
        ∀ d ∈ c.imports, d.path.isGiven = true := by
  have hparts : c.unnamedParts = [] := by
    rw [Component.validate] at h
    split at h
    next => cases h
    next =>
      obtain ⟨_, _, h⟩ := bind_eq_ok.mp h
      split at h
      next hnil => exact hnil
      next => cases h
  rw [Component.unnamedParts, List.append_eq_nil_iff, List.append_eq_nil_iff,
    List.filterMap_eq_nil_iff, List.filterMap_eq_nil_iff, List.filterMap_eq_nil_iff] at hparts
  obtain ⟨⟨hreads, hwrites⟩, himports⟩ := hparts
  have hnumbered : ∀ {α : Type} {x : α} {xs : List α}, x ∈ xs → ∃ i, (x, i) ∈ xs.zipIdx := by
    intro α x xs hx
    obtain ⟨i, hi⟩ := List.mem_iff_getElem?.mp hx
    exact ⟨i, List.mk_mem_zipIdx_iff_getElem?.mpr hi⟩
  refine ⟨fun r hr => ?_, fun w hw => ?_, fun d hd => ?_⟩
  · have hnone := hreads r hr
    by_contra hgiven
    simp [hgiven] at hnone
  · obtain ⟨i, hi⟩ := hnumbered hw
    have hnone := hwrites (w, i) hi
    by_contra hgiven
    simp [hgiven] at hnone
  · obtain ⟨i, hi⟩ := hnumbered hd
    have hnone := himports (d, i) hi
    by_contra hgiven
    simp [hgiven] at hnone

namespace Decode

theorem context_written {j : Json} {c : ContextSpec} (h : context j = .ok c)
    (hreads : ∀ r ∈ c.reads, r.2.name.isGiven = true)
    (hwrites : ∀ w ∈ c.writes, w.name.isGiven = true) : context (Encode.context c) = .ok c := by
  obtain ⟨raw, _, h⟩ := bind_eq_ok.mp h
  obtain ⟨rawReads, _, h⟩ := bind_eq_ok.mp h
  obtain ⟨readFields, _, h⟩ := bind_eq_ok.mp h
  obtain ⟨reads, hread, h⟩ := bind_eq_ok.mp h
  obtain ⟨items, _, h⟩ := bind_eq_ok.mp h
  obtain ⟨writes, hwrite, h⟩ := bind_eq_ok.mp h
  obtain rfl := Except.ok.inj h
  have hreadsBack : mapEntries contextRead (Entries.mapValues Encode.contextRead reads) = .ok reads :=
    mapEntries_of_mem fun r hr => by
      obtain ⟨j, hj⟩ := read_of_mapEntries hread r hr
      exact contextRead_written hj (hreads r hr)
  have hwritesBack : (writes.map Encode.contextWrite).mapM contextWrite = .ok writes :=
    mapM_of_mem fun w hw => by
      obtain ⟨j, hj⟩ := read_of_mapM hwrite w hw
      exact contextWrite_written hj (hwrites w hw)
  have hset : given "set" (.arr []) (Encode.context ⟨reads, writes⟩) =
      .ok (.arr (writes.map Encode.contextWrite)) :=
    given_arr rfl
  have hget : given "get" (.obj []) (Encode.context ⟨reads, writes⟩) =
      .ok (.object (Entries.mapValues Encode.contextRead reads)) :=
    given_obj rfl
  rw [context, hset, ok_bind, hget, ok_bind, Json.entries_object, ok_bind, hreadsBack, ok_bind]
  change ((writes.map Encode.contextWrite).mapM contextWrite >>= _) = _
  rw [hwritesBack]
  rfl

/-- The fields of what is written for a component whose children are written so. -/
def writtenFields (c : Component) (children : List Json) : Entries Json := [
  ("name", c.name), ("children", .arr children), ("state", Encode.state c.state),
  ("props", .arr c.props), ("propsTypeRef", c.propsTypeRef),
  ("defaultProps", .object (Entries.mapValues Encode.defaultProp c.defaultProps)),
  ("refs", .object (Entries.mapValues Encode.refSpec c.refs)), ("hooks", Encode.hooks c.hooks),
  ("context", Encode.context c.context), ("imports", .arr (c.imports.map Encode.declaredImport)),
  ("exports", .object (Entries.mapValues Encode.localExport c.exports)),
  ("meta", .obj c.metadata), ("types", .arr c.types), ("css", c.css)]

theorem component_writtenFields {c : Component} {children : List Json}
    (hhooks : hooks (Encode.hooks c.hooks) = .ok c.hooks)
    (hcontext : context (Encode.context c.context) = .ok c.context)
    (hdefaults : mapEntries defaultProp (Entries.mapValues Encode.defaultProp c.defaultProps) =
      .ok c.defaultProps)
    (htypeRef : c.propsTypeRef.isText "any" = false)
    (hchildren : children.mapM node = .ok c.children)
    (hstate : mapEntries stateValue (Entries.mapValues Encode.stateValue c.state) = .ok c.state)
    (hrefs : mapEntries refSpec (Entries.mapValues Encode.refSpec c.refs) = .ok c.refs)
    (himports : (c.imports.map Encode.declaredImport).mapM declaredImport = .ok c.imports)
    (hexports : mapEntries localExport (Entries.mapValues Encode.localExport c.exports) =
      .ok c.exports) :
    component (.object (writtenFields c children)) = .ok c := by
  have hfield : ∀ key default, (Json.object (writtenFields c children)).fieldD key default = _ :=
    Json.fieldD_object _
  have hgivenHooks : given "hooks" (.obj []) (.object (writtenFields c children)) =
      .ok (Encode.hooks c.hooks) := given_obj rfl
  have hgivenContext : given "context" (.obj []) (.object (writtenFields c children)) =
      .ok (Encode.context c.context) := given_obj rfl
  have hgivenProps : given "props" (.arr []) (.object (writtenFields c children)) =
      .ok (.arr c.props) := given_arr rfl
  have hgivenDefaults : given "defaultProps" (.obj []) (.object (writtenFields c children)) =
      .ok (.object (Entries.mapValues Encode.defaultProp c.defaultProps)) := given_obj rfl
  have hgivenChildren : given "children" (.arr []) (.object (writtenFields c children)) =
      .ok (.arr children) := given_arr rfl
  have hgivenState : given "state" (.obj []) (.object (writtenFields c children)) =
      .ok (.object (Entries.mapValues Encode.stateValue c.state)) := given_obj rfl
  have hgivenRefs : given "refs" (.obj []) (.object (writtenFields c children)) =
      .ok (.object (Entries.mapValues Encode.refSpec c.refs)) := given_obj rfl
  have hgivenImports : given "imports" (.arr []) (.object (writtenFields c children)) =
      .ok (.arr (c.imports.map Encode.declaredImport)) := given_arr rfl
  have hgivenExports : given "exports" (.obj []) (.object (writtenFields c children)) =
      .ok (.object (Entries.mapValues Encode.localExport c.exports)) := given_obj rfl
  have hgivenMeta : given "meta" (.obj []) (.object (writtenFields c children)) =
      .ok (.obj c.metadata) := given_obj rfl
  have hgivenTypes : given "types" (.arr []) (.object (writtenFields c children)) =
      .ok (.arr c.types) := given_arr rfl
  have htypeField : (Json.object (writtenFields c children)).field "propsTypeRef" =
      .ok c.propsTypeRef := hfield _ _
  have hnameField : (Json.object (writtenFields c children)).fieldD "name" (.str "") =
      .ok c.name := hfield _ _
  have hcssField : (Json.object (writtenFields c children)).field "css" = .ok c.css := hfield _ _
  have hobject : (Json.object (writtenFields c children)).isObject = true := rfl
  have hitems : ∀ items, (Json.arr items).items = .ok items := fun _ => rfl
  rw [component, if_neg (by simp [hobject]), hgivenHooks, ok_bind, hhooks, ok_bind, hgivenContext,
    ok_bind, hcontext, ok_bind, hgivenProps, ok_bind, hgivenDefaults, ok_bind, Json.entries_object,
    ok_bind, hdefaults, ok_bind, htypeField, ok_bind, hnameField, ok_bind, hgivenChildren, ok_bind,
    hitems, ok_bind, hchildren, ok_bind, hgivenState, ok_bind, Json.entries_object, ok_bind, hstate,
    ok_bind, hitems, ok_bind, hgivenRefs, ok_bind, Json.entries_object, ok_bind, hrefs, ok_bind,
    hgivenImports, ok_bind, hitems, ok_bind, himports, ok_bind, hgivenExports, ok_bind,
    Json.entries_object, ok_bind, hexports, ok_bind, hgivenMeta, ok_bind]
  rw [htypeRef, hgivenTypes, hcssField]
  rfl

end Decode

/-- A valid component that was read is written, and what is written for it is read as the same
    component. -/
theorem component_written {d : Json} {c : Component} (h : Component.ofJson d = .ok c)
    (hvalid : c.validate = .ok ()) : ∃ j, c.toJson = .ok j ∧ Component.ofJson j = .ok c := by
  obtain ⟨hreads, hwrites, _⟩ := named_of_validate hvalid
  rw [Component.ofJson, Decode.component] at h
  split at h
  next => cases h
  next =>
    obtain ⟨rawHooks, _, h⟩ := bind_eq_ok.mp h
    obtain ⟨hooks, hhooks, h⟩ := bind_eq_ok.mp h
    obtain ⟨rawContext, _, h⟩ := bind_eq_ok.mp h
    obtain ⟨context, hcontext, h⟩ := bind_eq_ok.mp h
    obtain ⟨rawProps, _, h⟩ := bind_eq_ok.mp h
    obtain ⟨rawDefaults, _, h⟩ := bind_eq_ok.mp h
    obtain ⟨defaultFields, _, h⟩ := bind_eq_ok.mp h
    obtain ⟨defaultProps, hdefaults, h⟩ := bind_eq_ok.mp h
    obtain ⟨typeRef, _, h⟩ := bind_eq_ok.mp h
    obtain ⟨name, _, h⟩ := bind_eq_ok.mp h
    obtain ⟨rawChildren, _, h⟩ := bind_eq_ok.mp h
    obtain ⟨childItems, _, h⟩ := bind_eq_ok.mp h
    obtain ⟨children, hchildren, h⟩ := bind_eq_ok.mp h
    obtain ⟨rawState, _, h⟩ := bind_eq_ok.mp h
    obtain ⟨stateFields, _, h⟩ := bind_eq_ok.mp h
    obtain ⟨state, hstate, h⟩ := bind_eq_ok.mp h
    obtain ⟨props, _, h⟩ := bind_eq_ok.mp h
    obtain ⟨rawRefs, _, h⟩ := bind_eq_ok.mp h
    obtain ⟨refFields, _, h⟩ := bind_eq_ok.mp h
    obtain ⟨refs, hrefs, h⟩ := bind_eq_ok.mp h
    obtain ⟨rawImports, _, h⟩ := bind_eq_ok.mp h
    obtain ⟨importItems, _, h⟩ := bind_eq_ok.mp h
    obtain ⟨imports, himports, h⟩ := bind_eq_ok.mp h
    obtain ⟨rawExports, _, h⟩ := bind_eq_ok.mp h
    obtain ⟨exportFields, _, h⟩ := bind_eq_ok.mp h
    obtain ⟨exports, hexports, h⟩ := bind_eq_ok.mp h
    obtain ⟨rawMeta, _, h⟩ := bind_eq_ok.mp h
    obtain ⟨metadata, _, h⟩ := bind_eq_ok.mp h
    obtain ⟨rawTypes, _, h⟩ := bind_eq_ok.mp h
    obtain ⟨types, _, h⟩ := bind_eq_ok.mp h
    obtain ⟨css, _, h⟩ := bind_eq_ok.mp h
    obtain rfl := Except.ok.inj h
    obtain ⟨js, hjs, hread⟩ := Decode.mapM_node_written hchildren
    have htypeRef : (if typeRef.isText "any" then Json.null else typeRef).isText "any" = false := by
      by_cases hany : typeRef.isText "any" = true
      · rw [if_pos hany]
        rfl
      · rw [if_neg hany]
        simpa using hany
    refine ⟨.object (Decode.writtenFields _ js), ?_, Decode.component_writtenFields
      (Decode.hooks_written _ _ hhooks) (Decode.context_written hcontext hreads hwrites)
      (Decode.defaultProp_written.mapEntries hdefaults) htypeRef hread
      (Decode.stateValue_written.mapEntries hstate) (Decode.refSpec_written.mapEntries hrefs)
      (Decode.declaredImport_written.mapM himports)
      (Decode.localExport_written.mapEntries hexports)⟩
    rw [Component.toJson, hjs]
    rfl

/-- Reading undoes writing: what is written for a valid component that was read is read as the same
    component, as a value and, when its document parses as that value, as the bytes of a file. -/
theorem reading_undoes_writing {d : Json} {c : Component} (h : Component.ofJson d = .ok c)
    (hvalid : c.validate = .ok ()) :
    ∃ j, c.toJson = .ok j ∧ Component.ofJson j = .ok c ∧
      ∃ document bytes, c.document = .ok document ∧ document.utf8? = some bytes ∧
        (Json.parse document = .ok j → ∀ path, Component.ofBytes path bytes = .ok c) := by
  obtain ⟨j, hj, hread⟩ := component_written h hvalid
  obtain ⟨bytes, hbytes, hfile⟩ := Json.document_file j
  refine ⟨j, hj, hread, Json.print .document j, bytes, by rw [Component.document, hj]; rfl, hbytes,
    fun hparse path => ?_⟩
  obtain ⟨text, htext, hbreaks⟩ := Option.map_eq_some_iff.mp hfile
  rw [Component.ofBytes, htext]
  change Component.ofText path (Text.unifyBreaks text) = .ok c
  rw [hbreaks, Component.ofText, hparse]
  exact hread

/-- A description with a branch: a node that is shown when there are items, and another else. -/
def branchDescription : Json := .object [
  ("name", .str "Cart"),
  ("children", .arr [.object [
    ("name", .str "Show"),
    ("bindings", .object [("when", .object [("code", .str "state.items.length")])]),
    ("meta", .object [("else", .object [("name", .str "p")])])]]),
  ("state", .object [("items", .object [("code", .str "[]")])]),
  ("hooks", .object [("onUnMount", .object [("code", .str "stop()")])])]

theorem reading_undoes_writing_branch : ∃ c, Component.ofJson branchDescription = .ok c ∧
    c.validate = .ok () ∧ ∃ j, c.toJson = .ok j ∧ Component.ofJson j = .ok c := by
  obtain ⟨c, hc, hvalid⟩ : ∃ c, Component.ofJson branchDescription = .ok c ∧
    c.validate = .ok () := ⟨_, rfl, by rfl⟩
  obtain ⟨j, hj, hread, _⟩ := reading_undoes_writing hc hvalid
  exact ⟨c, hc, hvalid, j, hj, hread⟩

end ElementCompiler
