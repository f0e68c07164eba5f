import ElementCompiler.Component.Decode
import ElementCompiler.Proofs.Json.Fields

set_option autoImplicit false

/-!
The parts of a component are read back as they are written. What a reader leaves out or replaces by a
default is something that no part it has read can have.
-/

namespace ElementCompiler

open Attempt

/-- A part that was read is read back from what is written for it. -/
def ReadsWritten {α : Type} (read : Json → Attempt α) (write : α → Json) : Prop :=
  ∀ j x, read j = .ok x → read (write x) = .ok x

section Collections

variable {α : Type} {read : Json → Attempt α} {write : α → Json}

theorem mapM_of_mem {xs : List α} (h : ∀ x ∈ xs, read (write x) = .ok x) :
    (xs.map write).mapM read = .ok xs := by
  rw [mapM_eq_ok, List.forall₂_map_left_iff]
  exact List.forall₂_same.mpr h

theorem read_of_mapM {js : List Json} {xs : List α} (h : js.mapM read = .ok xs) :
    ∀ x ∈ xs, ∃ j, read j = .ok x := by
  intro x hx
  obtain ⟨j, _, hj⟩ := exists_left (mapM_eq_ok.mp h) x hx
  exact ⟨j, hj⟩

theorem mapEntries_of_mem {xs : Entries α} (h : ∀ x ∈ xs, read (write x.2) = .ok x.2) :
    Decode.mapEntries read (Entries.mapValues write xs) = .ok xs := by
  induction xs with
  | nil => rfl
  | cons x xs ih =>
    have hrest := ih fun y hy => h y (List.mem_cons_of_mem x hy)
    rw [Entries.mapValues] at hrest
    rw [Entries.mapValues, List.map_cons, Decode.mapEntries, h x List.mem_cons_self, ok_bind, hrest]
    rfl

theorem read_of_mapEntries {js : Entries Json} {xs : Entries α}
    (h : Decode.mapEntries read js = .ok xs) : ∀ x ∈ xs, ∃ j, read j = .ok x.2 := by
  induction js generalizing xs with
  | nil =>
    obtain rfl := Except.ok.inj h
    exact fun x hx => absurd hx List.not_mem_nil
  | cons j js ih =>
    obtain ⟨x, hx, h⟩ := bind_eq_ok.mp h
    obtain ⟨rest, hrest, h⟩ := bind_eq_ok.mp h
    obtain rfl := Except.ok.inj h
    intro y hy
    rcases List.mem_cons.mp hy with rfl | hy
    · exact ⟨j.2, hx⟩
    · exact ih hrest y hy

theorem ReadsWritten.mapM (h : ReadsWritten read write) {js : List Json} {xs : List α}
    (hread : js.mapM read = .ok xs) : (xs.map write).mapM read = .ok xs := by
  refine mapM_of_mem fun x hx => ?_
  obtain ⟨j, hj⟩ := read_of_mapM hread x hx
  exact h j x hj

theorem ReadsWritten.mapEntries (h : ReadsWritten read write) {js : Entries Json}
    {xs : Entries α} (hread : Decode.mapEntries read js = .ok xs) :
    Decode.mapEntries read (Entries.mapValues write xs) = .ok xs := by
  refine mapEntries_of_mem fun x hx => ?_
  obtain ⟨j, hj⟩ := read_of_mapEntries hread x hx
  exact h j x.2 hj

end Collections

namespace Decode

theorem given_object (fields : Entries Json) (key : Text) (default : Json) :
    given key default (.object fields) =
      .ok (((Entries.get? fields key).getD .null).orElse default) := by
  rw [given, Json.field, Json.fieldD_object]
  rfl

theorem given_obj {fields : Entries Json} {key : Text} {members : Entries Json Key}
    (h : Entries.get? fields key = some (.obj members)) :
    given key (.obj []) (.object fields) = .ok (.obj members) := by
  rw [given_object, h, Option.getD_some, Json.orElse_obj]

theorem given_arr {fields : Entries Json} {key : Text} {items : List Json}
    (h : Entries.get? fields key = some (.arr items)) :
    given key (.arr []) (.object fields) = .ok (.arr items) := by
  rw [given_object, h, Option.getD_some, Json.orElse_arr]

theorem given_sparse {fields : Entries Json} (h : (Entries.keys fields).Nodup) (key : Text)
    (default : Json) : given key default (Encode.sparse fields) =
      .ok (((Entries.get? fields key).getD .null).orElse default) := by
  rw [given, Json.field_sparse h]
  rfl

theorem stateValue_written : ReadsWritten stateValue Encode.stateValue := by
  intro j v h
  obtain ⟨kind, _, h⟩ := bind_eq_ok.mp h
  split at h
  next => simp at h
  next k _ =>
    obtain ⟨code, _, h⟩ := bind_eq_ok.mp h
    obtain rfl := Except.ok.inj h
    cases k <;> rfl

theorem state_written {js : Entries Json} {es : Entries StateValue}
    (h : mapEntries stateValue js = .ok es) :
    (Encode.state es).entries >>= mapEntries stateValue = .ok es := by
  rw [Encode.state, Json.entries_object, ok_bind]
  exact stateValue_written.mapEntries h

theorem equals_str {j : Json} {s : Text} (h : j.equals (.str s) = true) : j = .str s := by
  unfold Json.equals at h
  have hsame := (Bool.and_eq_true_iff.mp h).1
  cases j with
  | str t => exact congrArg Json.str (Key.text.inj (Key.eq_text_of_beq hsame))
  | null => cases Key.eq_text_of_beq hsame
  | bool b => cases Key.eq_text_of_beq hsame
  | int n => cases Key.eq_text_of_beq hsame
  | float x => cases Key.eq_text_of_beq hsame
  | arr items => simp [Json.same, Json.key?] at hsame
  | obj fields => simp [Json.same, Json.key?] at hsame

theorem binding_written : ReadsWritten binding Encode.binding := by
  intro j b h
  obtain ⟨mode, _, h⟩ := bind_eq_ok.mp h
  split at h
  next => simp at h
  next m _ =>
    obtain ⟨code, _, h⟩ := bind_eq_ok.mp h
    obtain ⟨raw, _, h⟩ := bind_eq_ok.mp h
    obtain ⟨arguments, _, h⟩ := bind_eq_ok.mp h
    have hnotNull : b.rawCode.isNull = false := by
      obtain rfl := Except.ok.inj h
      cases raw <;> rfl
    obtain ⟨s, hcode⟩ : ∃ s, b.code = .str s := by
      obtain rfl := Except.ok.inj h
      exact ⟨_, rfl⟩
    obtain ⟨bcode, braw, bmode, barguments⟩ := b
    obtain rfl : bcode = .str s := hcode
    change braw.isNull = false at hnotNull
    -- the raw code is left out when it is the code, and then the code stands for it
    have hraw : (if (if braw.equals (.str s) then Json.null else braw).isNull then Json.str s
        else if braw.equals (.str s) then .null else braw) = braw := by
      by_cases heq : braw.equals (.str s) = true
      · rw [if_pos heq]
        exact (equals_str heq).symm
      · rw [if_neg heq, if_neg (by simp [hnotNull])]
    have hkeys : (Entries.keys [(Text.ofString "code", .str s),
        ("rawCode", if braw.equals (.str s) then .null else braw), ("type", .str bmode.text),
        ("arguments", barguments)]).Nodup := by
      change List.Nodup [Text.ofString "code", "rawCode", "type", "arguments"]
      decide
    have hmode : (Encode.binding ⟨.str s, braw, bmode, barguments⟩).fieldD "type" (.str "normal") =
        .ok (.str bmode.text) := Json.fieldD_sparse hkeys _ _
    have hcode : (Encode.binding ⟨.str s, braw, bmode, barguments⟩).fieldD "code" (.str "") =
        .ok (.str s) := Json.fieldD_sparse hkeys _ _
    have hrawCode : (Encode.binding ⟨.str s, braw, bmode, barguments⟩).field "rawCode" = _ :=
      Json.field_sparse hkeys "rawCode"
    have harguments : (Encode.binding ⟨.str s, braw, bmode, barguments⟩).field "arguments" = _ :=
      Json.field_sparse hkeys "arguments"
    rw [binding, hmode, ok_bind, hcode, hrawCode, harguments]
    have hfind : (BindingMode.all.find? fun m => (Json.str bmode.text).isText m.text) = some bmode := by
      cases bmode <;> rfl
    rw [hfind]
    change Except.ok (Binding.mk (.str s) (if (if braw.equals (.str s) then Json.null else braw).isNull
      then Json.str s else if braw.equals (.str s) then .null else braw) bmode barguments) = _
    rw [hraw]

theorem bindings_written {js : Entries Json} {bs : Entries (Option Binding)}
    (h : bindings js = .ok bs) :
    ∃ written, Encode.bindings bs = .ok written ∧ bindings written = .ok bs := by
  induction js generalizing bs with
  | nil =>
    obtain rfl := Except.ok.inj h
    exact ⟨[], rfl, rfl⟩
  | cons j js ih =>
    obtain ⟨key, j⟩ := j
    rw [bindings] at h
    by_cases hnull : j.isNull = true
    · rw [if_pos hnull] at h
      exact ih h
    · rw [if_neg hnull] at h
      obtain ⟨b, hb, h⟩ := bind_eq_ok.mp h
      obtain ⟨rest, hrest, h⟩ := bind_eq_ok.mp h
      obtain rfl := Except.ok.inj h
      obtain ⟨written, hwritten, hread⟩ := ih hrest
      refine ⟨(key, Encode.binding b) :: written, ?_, ?_⟩
      · rw [Encode.bindings, hwritten]
        rfl
      · have hobject : (Encode.binding b).isNull = false := rfl
        rw [bindings, if_neg (by simp [hobject]), binding_written j b hb, ok_bind, hread]
        rfl

theorem hook_written : ReadsWritten hook Encode.hook := by
  intro j h hread
  rw [hook] at hread
  split at hread
  next =>
    obtain rfl := Except.ok.inj hread
    rfl
  next =>
    obtain ⟨code, _, hread⟩ := bind_eq_ok.mp hread
    obtain rfl := Except.ok.inj hread
    by_cases hgiven : code.isGiven = true
    · rw [if_pos hgiven]
      change Except.ok (if code.isGiven then some code else none) = _
      rw [if_pos hgiven]
    · rw [if_neg hgiven]
      rfl

theorem updateHook_written : ReadsWritten updateHook Encode.updateHook := by
  intro j u h
  obtain ⟨code, _, h⟩ := bind_eq_ok.mp h
  obtain ⟨raw, _, h⟩ := bind_eq_ok.mp h
  obtain ⟨deps, _, h⟩ := bind_eq_ok.mp h
  obtain rfl := Except.ok.inj h
  change (((Json.arr deps).orElse (.arr [])).items >>= fun deps =>
    Except.ok (UpdateHook.mk code deps)) = _
  rw [Json.orElse_arr]
  rfl

theorem hooks_written : ReadsWritten hooks Encode.hooks := by
  intro j h hread
  obtain ⟨updates, _, hread⟩ := bind_eq_ok.mp hread
  obtain ⟨initJson, _, hread⟩ := bind_eq_ok.mp hread
  obtain ⟨onInit, hinit, hread⟩ := bind_eq_ok.mp hread
  obtain ⟨mountJson, _, hread⟩ := bind_eq_ok.mp hread
  obtain ⟨onMount, hmount, hread⟩ := bind_eq_ok.mp hread
  obtain ⟨items, _, hread⟩ := bind_eq_ok.mp hread
  obtain ⟨onUpdate, hupdate, hread⟩ := bind_eq_ok.mp hread
  obtain ⟨first, _, hread⟩ := bind_eq_ok.mp hread
  obtain ⟨unmountJson, _, hread⟩ := bind_eq_ok.mp hread
  obtain ⟨onUnmount, hunmount, hread⟩ := bind_eq_ok.mp hread
  obtain rfl := Except.ok.inj hread
  have hkeys : (Entries.keys [(Text.ofString "onInit", Encode.hook onInit),
      ("onMount", Encode.hook onMount), ("onUpdate", .arr (onUpdate.map Encode.updateHook)),
      ("onUnMount", Encode.hook onUnmount)]).Nodup := by
    change List.Nodup [Text.ofString "onInit", "onMount", "onUpdate", "onUnMount"]
    decide
  have hfield : ∀ key, (Encode.hooks ⟨onInit, onMount, onUpdate, onUnmount⟩).field key = _ :=
    Json.field_sparse hkeys
  have hinitField : (Encode.hooks ⟨onInit, onMount, onUpdate, onUnmount⟩).field "onInit" =
      .ok (Encode.hook onInit) := hfield "onInit"
  have hmountField : (Encode.hooks ⟨onInit, onMount, onUpdate, onUnmount⟩).field "onMount" =
      .ok (Encode.hook onMount) := hfield "onMount"
  have hunmountField : (Encode.hooks ⟨onInit, onMount, onUpdate, onUnmount⟩).field "onUnMount" =
      .ok (Encode.hook onUnmount) := hfield "onUnMount"
  have hupdates : given "onUpdate" (.arr []) (Encode.hooks ⟨onInit, onMount, onUpdate, onUnmount⟩) =
      .ok (.arr (onUpdate.map Encode.updateHook)) := by
    refine (given_sparse hkeys "onUpdate" (.arr [])).trans (congrArg Except.ok ?_)
    exact Json.orElse_arr _
  -- the other spelling is not written, so it is asked for only when there is no hook
  have hlast : (if (Encode.hook onUnmount).isGiven then (Except.ok (Encode.hook onUnmount) : Attempt Json)
      else (Encode.hooks ⟨onInit, onMount, onUpdate, onUnmount⟩).field "onUnmount") =
        .ok (Encode.hook onUnmount) := by
    cases onUnmount with
    | none => exact hfield "onUnmount"
    | some code => rfl
  rw [hooks, hupdates, ok_bind, hinitField, ok_bind, hook_written _ _ hinit, ok_bind, hmountField,
    ok_bind, hook_written _ _ hmount, ok_bind]
  change ((onUpdate.map Encode.updateHook).mapM updateHook >>= _) = _
  rw [updateHook_written.mapM hupdate, ok_bind, hunmountField, ok_bind, hlast, ok_bind,
    hook_written _ _ hunmount]
  rfl

theorem isNull_of_isGiven {j : Json} (h : j.isGiven = true) : j.isNull = false := by
  cases j with
  | null => exact absurd h Bool.false_ne_true
  | _ => rfl

/-- What a context is read by needs a name, and the name is then written. -/
theorem contextRead_written {j : Json} {r : ContextRead} (h : contextRead j = .ok r)
    (hname : r.name.isGiven = true) : contextRead (Encode.contextRead r) = .ok r := by
  obtain ⟨name, path⟩ := r
  have hkeys : (Entries.keys [(Text.ofString "name", name), ("path", path)]).Nodup := by
    change List.Nodup [Text.ofString "name", "path"]
    decide
  have hnull := isNull_of_isGiven hname
  have hnameField : (Encode.contextRead ⟨name, path⟩).fieldD "name" (.str "") = .ok name := by
    refine (Json.fieldD_sparse hkeys "name" (.str "")).trans ?_
    change Except.ok (((some name).filter fun j => !j.isNull).getD _) = _
    simp [Option.filter, hnull]
  have hpathField : (Encode.contextRead ⟨name, path⟩).field "path" = .ok path :=
    Json.field_sparse hkeys "path"
  rw [contextRead, hnameField, ok_bind, hpathField]
  rfl

theorem mapEntries_length {α : Type} {f : Json → Attempt α} {js : Entries Json} {xs : Entries α}
    (h : mapEntries f js = .ok xs) : xs.length = js.length := by
  induction js generalizing xs with
  | nil =>
    obtain rfl := Except.ok.inj h
    rfl
  | cons j js ih =>
    obtain ⟨x, _, h⟩ := bind_eq_ok.mp h
    obtain ⟨rest, hrest, h⟩ := bind_eq_ok.mp h
    obtain rfl := Except.ok.inj h
    exact congrArg (· + 1) (ih hrest)

/-- A literal value that is published has a member, so it is written and given. -/
theorem writtenValue_written {value : Json} {es : Entries StateValue} (hgiven : value.isGiven = true)
    (h : value.entries >>= mapEntries stateValue = .ok es) :
    (Encode.state es).isGiven = true ∧ ∃ v vs, es = v :: vs := by
  obtain ⟨fields, hfields, h⟩ := bind_eq_ok.mp h
  have hlength := mapEntries_length h
  cases value with
  | obj members =>
    rw [Json.entries, mapM_eq_ok] at hfields
    have hmembers := hfields.length_eq
    cases es with
    | nil =>
      have hnil : members = [] := List.eq_nil_of_length_eq_zero (by
        rw [hmembers, ← hlength]
        rfl)
      rw [hnil] at hgiven
      exact absurd hgiven Bool.false_ne_true
    | cons v vs => exact ⟨rfl, v, vs, rfl⟩
  | null => cases hfields
  | bool b => cases hfields
  | int n => cases hfields
  | float x => cases hfields
  | str s => cases hfields
  | arr items => cases hfields

/-- A write with a name is read from its fields, whatever stands for its value. -/
theorem contextWrite_fields {name ref path written : Json} (hname : name.isGiven = true) :
    contextWrite (Encode.sparse [("name", name), ("value", written), ("ref", ref), ("path", path)]) =
      (if written.isGiven then (written.entries >>= mapEntries stateValue).map some else .ok none).map
        fun value => ⟨name, value, ref, path⟩ := by
  have hkeys : (Entries.keys [(Text.ofString "name", name), ("value", written), ("ref", ref),
      ("path", path)]).Nodup := by
    change List.Nodup [Text.ofString "name", "value", "ref", "path"]
    decide
  have hnameField : (Encode.sparse [("name", name), ("value", written), ("ref", ref),
      ("path", path)]).fieldD "name" (.str "") = .ok name := by
    refine (Json.fieldD_sparse hkeys "name" (.str "")).trans ?_
    change Except.ok (((some name).filter fun j => !j.isNull).getD _) = _
    simp [Option.filter, isNull_of_isGiven hname]
  have hvalueField := Json.field_sparse hkeys "value"
  have hrefField := Json.field_sparse hkeys "ref"
  have hpathField := Json.field_sparse hkeys "path"
  rw [contextWrite, hnameField, ok_bind, hvalueField, ok_bind, hrefField, hpathField]
  change (if written.isGiven = true then (written.entries >>= fun members =>
    mapEntries stateValue members >>= fun es => Except.ok (ContextWrite.mk name (some es) ref path))
      else Except.ok (ContextWrite.mk name none ref path)) = _
  by_cases hgiven : written.isGiven = true
  · rw [if_pos hgiven, if_pos hgiven]
    cases written.entries with
    | error e => rfl
    | ok members =>
      rw [ok_bind, ok_bind]
      cases mapEntries stateValue members <;> rfl
  · rw [if_neg hgiven, if_neg hgiven]
    rfl

theorem contextWrite_written {j : Json} {w : ContextWrite} (h : contextWrite j = .ok w)
    (hname : w.name.isGiven = true) : contextWrite (Encode.contextWrite w) = .ok w := by
  obtain ⟨name, _, h⟩ := bind_eq_ok.mp h
  obtain ⟨valueJson, _, h⟩ := bind_eq_ok.mp h
  split at h
  next hgiven =>
    obtain ⟨members, hmembers, h⟩ := bind_eq_ok.mp h
    obtain ⟨es, hes, h⟩ := bind_eq_ok.mp h
    obtain ⟨value, hvalue, h⟩ := bind_eq_ok.mp h
    obtain rfl := Except.ok.inj hvalue
    obtain ⟨ref, _, h⟩ := bind_eq_ok.mp h
    obtain ⟨path, _, h⟩ := bind_eq_ok.mp h
    obtain rfl := Except.ok.inj h
    obtain ⟨hwritten, v, vs, rfl⟩ :=
      writtenValue_written hgiven (bind_eq_ok.mpr ⟨members, hmembers, hes⟩)
    refine (contextWrite_fields hname).trans ?_
    rw [if_pos hwritten, state_written hes]
    rfl
  next =>
    obtain ⟨value, hvalue, h⟩ := bind_eq_ok.mp h
    obtain rfl := Except.ok.inj hvalue
    obtain ⟨ref, _, h⟩ := bind_eq_ok.mp h
    obtain ⟨path, _, h⟩ := bind_eq_ok.mp h
    obtain rfl := Except.ok.inj h
    exact contextWrite_fields hname

theorem defaultProp_written : ReadsWritten defaultProp Encode.defaultProp := fun _ _ _ => rfl

theorem refSpec_written : ReadsWritten refSpec Encode.refSpec := by
  intro j r _
  obtain ⟨argument, typeParameter⟩ := r
  have hkeys : (Entries.keys [(Text.ofString "argument", argument),
      ("typeParameter", typeParameter)]).Nodup := by
    change List.Nodup [Text.ofString "argument", "typeParameter"]
    decide
  have hargument : (Encode.refSpec ⟨argument, typeParameter⟩).field "argument" = .ok argument :=
    Json.field_sparse hkeys "argument"
  have htype : (Encode.refSpec ⟨argument, typeParameter⟩).field "typeParameter" =
      .ok typeParameter := Json.field_sparse hkeys "typeParameter"
  rw [refSpec, hargument, ok_bind, htype]
  rfl

theorem declaredImport_written : ReadsWritten declaredImport Encode.declaredImport := by
  intro j d _
  obtain ⟨path, imports⟩ := d
  change (((Json.obj imports).orElse (.obj [])).toFields >>= fun imports =>
    Except.ok (DeclaredImport.mk path imports)) = _
  rw [Json.orElse_obj]
  rfl

theorem localExport_written : ReadsWritten localExport Encode.localExport := by
  intro j e _
  obtain ⟨code, used, function⟩ := e
  rfl

end Decode

end ElementCompiler
