import ElementCompiler.Component.Decode
import ElementCompiler.Proofs.Json.Shapes

set_option autoImplicit false

/-!
The shapes of the values that components and nodes are read from. A component is read from bytes only
when they are JSON of its shape, and then whatever else is wrong with them is told with a message.
-/

namespace ElementCompiler

namespace Decode

open Attempt (Demands)
open Json

theorem given_part (fields : Entries Json Key) (key : Text) (default : Json) :
    given key default (.obj fields) = .ok ((part fields key).orElse default) := rfl

theorem mapEntries_demands {α : Type} {f : Json → Attempt α} {p : Json → Prop}
    (h : ∀ j, Demands (f j) (p j)) (entries : Entries Json) :
    Demands (mapEntries f entries) (∀ e ∈ entries, p e.2) := by
  induction entries with
  | nil => exact (Demands.ok []).of_iff (by simp)
  | cons e rest ih =>
    obtain ⟨key, j⟩ := e
    rw [mapEntries]
    exact ((h j).bind fun _ _ => ih.bind fun _ _ => .ok _).of_iff (by simp)

/-- Values of one shape, in a part that may be missing. -/
theorem items_part_demands {α : Type} {f : Json → Attempt α} {p : Json → Prop}
    (h : ∀ j, Demands (f j) (p j)) (fields : Entries Json Key) (key : Text) :
    Demands (((part fields key).orElse (.arr [])).items >>= fun items => items.mapM f)
      (Given (EachItem p) (part fields key)) :=
  orElse_demands (fun j => (eachItem_demands fun item _ => h item : Demands (j.items >>= _) _)) _
    (.arr []) (eachItem_nil p)

theorem fields_part_demands {α : Type} {f : Json → Attempt α} {p : Json → Prop}
    (h : ∀ j, Demands (f j) (p j)) (fields : Entries Json Key) (key : Text) :
    Demands (((part fields key).orElse (.obj [])).entries >>= mapEntries f)
      (Given (EachField p) (part fields key)) :=
  orElse_demands (eachField_demands (mapEntries_demands h)) _ (.obj []) (eachField_nil p)

theorem hook_demands (j : Json) : Demands (hook j) (Given IsObject j) := by
  rw [hook]
  split
  next hj =>
    have hnot : Given IsObject j := fun hgiven => by simp [hgiven] at hj
    exact (Demands.ok none).of_iff ⟨fun _ => hnot, fun _ => trivial⟩
  next hj =>
    have hgiven : Given IsObject j ↔ IsObject j :=
      ⟨fun h => h (by simpa using hj), fun h _ => h⟩
    rw [hgiven]
    cases j with
    | obj fields => exact .ok _
    | _ => exact Demands.crash rfl

theorem stateValue_demands (j : Json) : Demands (stateValue j) (IsObject j) := by
  cases j with
  | obj fields =>
    rw [stateValue, fieldD_obj, Attempt.ok_bind]
    split
    · exact .refused rfl
    · exact .ok _
  | _ => exact Demands.crash rfl

theorem binding_demands (j : Json) : Demands (binding j) (IsObject j) := by
  cases j with
  | obj fields =>
    rw [binding, fieldD_obj, Attempt.ok_bind]
    split
    · exact .refused rfl
    · exact .ok _
  | _ => exact Demands.crash rfl

/-- The shape of a binding: nothing, or an object. -/
def BindingShape (j : Json) : Prop := j.isNull = false → IsObject j

theorem bindings_demands (entries : Entries Json) :
    Demands (bindings entries) (∀ e ∈ entries, BindingShape e.2) := by
  induction entries with
  | nil => exact (Demands.ok []).of_iff (by simp)
  | cons e rest ih =>
    obtain ⟨key, j⟩ := e
    rw [bindings, List.forall_mem_cons]
    split
    next hj => exact ih.of_iff ⟨fun h => ⟨fun hnot => by simp [hj] at hnot, h⟩, fun h => h.2⟩
    next hj =>
      have hshape : IsObject j ↔ BindingShape j :=
        ⟨fun h _ => h, fun h => h (by simpa using hj)⟩
      exact (((binding_demands j).of_iff hshape).bind fun _ _ => ih.bind fun _ _ => .ok _).of_iff
        (by simp)

def UpdateShape : Json → Prop := WithFields fun fields => Given HasItems (part fields "deps")

theorem updateHook_demands (j : Json) : Demands (updateHook j) (UpdateShape j) := by
  cases j with
  | obj fields =>
    rw [updateHook, fieldD_obj, given_part, Attempt.ok_bind, Attempt.ok_bind]
    exact ((orElse_demands hasItems_demands _ _ (eachItem_nil _)).bind fun _ _ =>
      .ok _).of_iff (by simp [UpdateShape, WithFields, Given])
  | _ => exact Demands.crash rfl

/-- One update hook, or a list of them. -/
def UpdatesShape (j : Json) : Prop :=
  if j.isObject then UpdateShape j else EachItem UpdateShape j

theorem updates_demands (j : Json) :
    Demands ((if j.isObject then .ok [j] else j.items) >>= fun items => items.mapM updateHook)
      (UpdatesShape j) := by
  unfold UpdatesShape
  split
  · exact (Demands.mapM fun j _ => updateHook_demands j).of_iff (by simp)
  · exact eachItem_demands fun j _ => updateHook_demands j

/-- The last hook, by the spelling that is given. -/
def lastHook (fields : Entries Json Key) : Json :=
  if (part fields "onUnMount").isGiven then part fields "onUnMount" else part fields "onUnmount"

structure HookShapes (fields : Entries Json Key) : Prop where
  onInit : Given IsObject (part fields "onInit")
  onMount : Given IsObject (part fields "onMount")
  onUpdate : Given UpdatesShape (part fields "onUpdate")
  onUnmount : Given IsObject (lastHook fields)

theorem hooks_demands (j : Json) : Demands (hooks j) (WithFields HookShapes j) := by
  cases j with
  | obj fields =>
    have hlast : (if (part fields "onUnMount").isGiven then (.ok (part fields "onUnMount") : Attempt Json)
        else .ok (part fields "onUnmount")) = .ok (lastHook fields) := by
      rw [lastHook]
      split <;> rfl
    simp only [hooks, given_part, field_obj, Attempt.ok_bind, hlast]
    have hupdates := orElse_demands updates_demands (part fields "onUpdate") (.arr [])
      (eachItem_nil _)
    refine ((hook_demands _).bind fun _ _ => (hook_demands _).bind fun _ _ =>
      hupdates.bind_bind fun _ => (hook_demands _).bind fun _ _ => .ok _).of_iff ?_
    exact ⟨fun ⟨hinit, hmount, hupdate, hlast, _⟩ => ⟨hinit, hmount, hupdate, hlast⟩,
      fun ⟨hinit, hmount, hupdate, hlast⟩ => ⟨hinit, hmount, hupdate, hlast, trivial⟩⟩
  | _ => exact Demands.crash rfl

theorem contextRead_demands (j : Json) : Demands (contextRead j) (IsObject j) := by
  cases j with
  | obj fields => exact .ok _
  | _ => exact Demands.crash rfl

def WriteShape : Json → Prop :=
  WithFields fun fields => Given (EachField IsObject) (part fields "value")

theorem contextWrite_demands (j : Json) : Demands (contextWrite j) (WriteShape j) := by
  cases j with
  | obj fields =>
    simp only [contextWrite, fieldD_obj, field_obj, Attempt.ok_bind]
    split
    next hgiven =>
      have hvalue : EachField IsObject (part fields "value") ↔ WriteShape (.obj fields) :=
        ⟨fun h _ => h, fun h => h hgiven⟩
      exact (((eachField_demands (mapEntries_demands stateValue_demands) _).of_iff hvalue).bind_bind
        fun _ => .ok _).of_iff (and_iff_left trivial)
    next hgiven => exact (Demands.ok _).of_iff ⟨fun _ h => absurd h hgiven, fun _ => trivial⟩
  | _ => exact Demands.crash rfl

/-- A list of writes, or an object of them. -/
def WritesShape : Json → Prop
  | .obj fields => ∀ f ∈ fields, WriteShape f.2
  | j => EachItem WriteShape j

theorem writes_demands (j : Json) :
    Demands (writeItems j >>= fun items => items.mapM contextWrite) (WritesShape j) := by
  unfold writeItems
  split
  next fields =>
    refine (Demands.mapM fun j _ => contextWrite_demands j).of_iff ?_
    rw [WritesShape, Entries.values, List.forall_mem_map]
  next hother =>
    rw [WritesShape.eq_2 _ hother]
    exact eachItem_demands fun j _ => contextWrite_demands j

structure ContextShapes (fields : Entries Json Key) : Prop where
  reads : Given (EachField IsObject) (part fields "get")
  writes : Given WritesShape (part fields "set")

theorem context_demands (j : Json) : Demands (context j) (WithFields ContextShapes j) := by
  cases j with
  | obj fields =>
    simp only [context, given_part, Attempt.ok_bind]
    have hreads := fields_part_demands contextRead_demands fields "get"
    have hwrites := orElse_demands writes_demands (part fields "set") (.arr []) (eachItem_nil _)
    refine (hreads.bind_bind fun _ => hwrites.bind_bind fun _ => .ok _).of_iff ?_
    exact ⟨fun ⟨hreads, hwrites, _⟩ => ⟨hreads, hwrites⟩,
      fun ⟨hreads, hwrites⟩ => ⟨hreads, hwrites, trivial⟩⟩
  | _ => exact Demands.crash rfl

theorem defaultProp_demands (j : Json) : Demands (defaultProp j) True := by
  cases j <;> exact .ok _

theorem refSpec_demands (j : Json) : Demands (refSpec j) (IsObject j) := by
  cases j with
  | obj fields => exact .ok _
  | _ => exact Demands.crash rfl

theorem localExport_demands (j : Json) : Demands (localExport j) (IsObject j) := by
  cases j with
  | obj fields => exact .ok _
  | _ => exact Demands.crash rfl

def ImportShape : Json → Prop :=
  WithFields fun fields => Given IsMapping (part fields "imports")

theorem declaredImport_demands (j : Json) : Demands (declaredImport j) (ImportShape j) := by
  cases j with
  | obj fields =>
    simp only [declaredImport, fieldD_obj, given_part, Attempt.ok_bind]
    exact ((orElse_demands toFields_demands _ (.obj []) trivial).bind fun _ _ => .ok _).of_iff
      (by simp [ImportShape, WithFields, Given])
  | _ => exact Demands.crash rfl

/-- The else branch among the metadata, if it is an object. -/
def branchIn (metadata : Entries Json Key) : Option Json :=
  match Entries.get? metadata (.text elseKey) with
  | some (.obj inner) => some (.obj inner)
  | _ => none

def branchOf (fields : Entries Json Key) : Option Json :=
  match ((part fields "meta").orElse (.obj [])).toFields with
  | .ok metadata => branchIn metadata
  | .error _ => none

/-- The shape of a node and of the nodes below it. What is no object is refused as a node, and may
    stand where one is wanted. -/
inductive NodeShape : Json → Prop where
  | other {j : Json} (h : j.isObject = false) : NodeShape j
  | object {fields : Entries Json Key}
      (metadata : Given IsMapping (part fields "meta"))
      (branch : ∀ inner, branchOf fields = some inner → NodeShape inner)
      (properties : Given (EachField fun _ => True) (part fields "properties"))
      (bindings : Given (EachField BindingShape) (part fields "bindings"))
      (items : Given HasItems (part fields "children"))
      (children : ∀ child ∈ (part fields "children").members, NodeShape child)
      (scope : Given IsObject (part fields "scope")) :
      NodeShape (.obj fields)

theorem outline_demands (fields : Entries Json Key) :
    Demands (outline (.obj fields)) (Given IsMapping (part fields "meta")) := by
  simp only [outline, given_part, Attempt.ok_bind]
  refine ((orElse_demands toFields_demands _ (.obj []) trivial).bind (q := True)
    fun metadata _ => ?_).of_iff (and_iff_left trivial)
  split <;> exact .ok _

/-- What the outline leaves to be read. -/
theorem outline_ok {fields : Entries Json Key} {o : Outline} (h : outline (.obj fields) = .ok o) :
    o.scope = (part fields "scope").orElse (.obj []) ∧ o.branch = branchOf fields := by
  simp only [outline, given_part, Attempt.ok_bind] at h
  obtain ⟨metadata, hmetadata, h⟩ := Attempt.bind_eq_ok.mp h
  have hbranchOf : branchOf fields = branchIn metadata := by rw [branchOf, hmetadata]
  rw [hbranchOf]
  split at h
  next inner hinner =>
    have hbranch : branchIn metadata = some (.obj inner) := by rw [branchIn, hinner]
    obtain rfl := Except.ok.inj h
    exact ⟨rfl, hbranch.symm⟩
  next hother =>
    have hbranch : branchIn metadata = none := by
      rw [branchIn]
      split
      next inner hinner => exact absurd hinner (hother inner)
      next => rfl
    obtain rfl := Except.ok.inj h
    exact ⟨rfl, hbranch.symm⟩

theorem attributes_demands (fields : Entries Json Key) :
    Demands (attributes (.obj fields)) (Given (EachField fun _ => True) (part fields "properties") ∧
      Given (EachField BindingShape) (part fields "bindings") ∧
      Given HasItems (part fields "children")) := by
  simp only [attributes, fieldD_obj, given_part, Attempt.ok_bind]
  have hproperties := orElse_demands hasFields_demands
    (part fields "properties") (.obj []) (eachField_nil _)
  have hbindings := orElse_demands (eachField_demands bindings_demands)
    (part fields "bindings") (.obj []) (eachField_nil _)
  have hitems := orElse_demands hasItems_demands (part fields "children") (.arr []) (eachItem_nil _)
  exact hproperties.bind fun _ _ => hbindings.bind_bind fun _ =>
    (hitems.bind fun _ _ => .ok _).of_iff (and_iff_left trivial)

theorem attributes_ok {fields : Entries Json Key} {a : Attributes}
    (h : attributes (.obj fields) = .ok a) : a.children = (part fields "children").members := by
  simp only [attributes, fieldD_obj, given_part, Attempt.ok_bind] at h
  obtain ⟨_, _, h⟩ := Attempt.bind_eq_ok.mp h
  obtain ⟨_, _, h⟩ := Attempt.bind_eq_ok.mp h
  obtain ⟨_, _, h⟩ := Attempt.bind_eq_ok.mp h
  obtain ⟨items, hitems, h⟩ := Attempt.bind_eq_ok.mp h
  obtain rfl := Except.ok.inj h
  rw [← members_orElse, members_of_items hitems]

theorem scope_demands (j : Json) : Demands (scope j) (IsObject j) := by
  cases j with
  | obj fields => exact .ok _
  | _ => exact Demands.crash rfl

theorem nodeWithin_demands (fuel : Nat) (j : Json) : Demands (nodeWithin fuel j) (NodeShape j) := by
  induction fuel generalizing j with
  | zero => exact .refused rfl
  | succ fuel ih =>
    cases j with
    | obj fields =>
      have hbranch : ∀ o, outline (.obj fields) = .ok o →
          Demands (o.branch.mapM (nodeWithin fuel))
            (∀ inner, branchOf fields = some inner → NodeShape inner) := by
        intro o ho
        rw [(outline_ok ho).2]
        exact .mapM_option fun inner _ => ih inner
      have hchildren : ∀ a, attributes (.obj fields) = .ok a →
          Demands (a.children.mapM (nodeWithin fuel))
            (∀ child ∈ (part fields "children").members, NodeShape child) := by
        intro a ha
        rw [attributes_ok ha]
        exact .mapM fun child _ => ih child
      have hscope : ∀ o, outline (.obj fields) = .ok o →
          Demands (scope o.scope) (Given IsObject (part fields "scope")) := by
        intro o ho
        rw [(outline_ok ho).1]
        exact orElse_demands scope_demands _ (.obj []) trivial
      have hnode : Demands (nodeWithin (fuel + 1) (.obj fields)) _ :=
        (outline_demands fields).bind fun o ho => (hbranch o ho).bind fun _ _ =>
          (attributes_demands fields).bind fun a ha => (hchildren a ha).bind fun _ _ =>
            (hscope o ho).bind fun _ _ => .ok _
      refine hnode.of_iff ⟨?_, ?_⟩
      · rintro ⟨metadata, branch, ⟨properties, bindings, items⟩, children, scope, _⟩
        exact .object metadata branch properties bindings items children scope
      · intro h
        cases h with
        | other h => cases h
        | object metadata branch properties bindings items children scope =>
          exact ⟨metadata, branch, ⟨properties, bindings, items⟩, children, scope, trivial⟩
    | _ => exact .refused rfl

/-- Nodes at every depth: the fuel only bounds how deep the reading goes. -/
theorem node_demands (j : Json) : Demands (node j) (NodeShape j) := nodeWithin_demands _ j

structure PartShapes (fields : Entries Json Key) : Prop where
  hooks : Given (WithFields HookShapes) (part fields "hooks")
  context : Given (WithFields ContextShapes) (part fields "context")
  defaultProps : Given (EachField fun _ => True) (part fields "defaultProps")
  children : Given (EachItem NodeShape) (part fields "children")
  state : Given (EachField IsObject) (part fields "state")
  props : Given HasItems (part fields "props")
  refs : Given (EachField IsObject) (part fields "refs")
  imports : Given (EachItem ImportShape) (part fields "imports")
  exports : Given (EachField IsObject) (part fields "exports")
  metadata : Given IsMapping (part fields "meta")
  types : Given HasItems (part fields "types")

/-- What is no object is refused as a component. -/
def ComponentShape : Json → Prop
  | .obj fields => PartShapes fields
  | _ => True

/-- Every part of a component is looked at, in the order of the shapes. -/
theorem component_demands (j : Json) : Demands (component j) (ComponentShape j) := by
  cases j with
  | obj fields =>
    have hhooks := orElse_demands hooks_demands (part fields "hooks") (.obj [])
      ⟨nofun, nofun, nofun, nofun⟩
    have hcontext := orElse_demands context_demands (part fields "context") (.obj [])
      ⟨nofun, nofun⟩
    have hprops := orElse_demands hasItems_demands (part fields "props") (.arr []) (eachItem_nil _)
    have hmetadata := orElse_demands toFields_demands (part fields "meta") (.obj []) trivial
    have htypes := orElse_demands hasItems_demands (part fields "types") (.arr []) (eachItem_nil _)
    have hcomponent : Demands (component (.obj fields)) _ :=
      hhooks.bind fun _ _ => hcontext.bind fun _ _ =>
        (fields_part_demands defaultProp_demands fields "defaultProps").bind_bind fun _ =>
        (items_part_demands node_demands fields "children").bind_bind fun _ =>
        (fields_part_demands stateValue_demands fields "state").bind_bind fun _ =>
        hprops.bind fun _ _ =>
        (fields_part_demands refSpec_demands fields "refs").bind_bind fun _ =>
        (items_part_demands declaredImport_demands fields "imports").bind_bind fun _ =>
        (fields_part_demands localExport_demands fields "exports").bind_bind fun _ =>
        hmetadata.bind fun _ _ => htypes.bind fun _ _ => .ok _
    refine hcomponent.of_iff ⟨?_, ?_⟩
    · rintro ⟨hooks, context, defaultProps, children, state, props, refs, imports, exports, metadata,
        types, _⟩
      exact ⟨hooks, context, defaultProps, children, state, props, refs, imports, exports, metadata,
        types⟩
    · rintro ⟨hooks, context, defaultProps, children, state, props, refs, imports, exports, metadata,
        types⟩
      exact ⟨hooks, context, defaultProps, children, state, props, refs, imports, exports, metadata,
        types, trivial⟩
  | _ => exact .refused rfl

end Decode

namespace Component

open Attempt (Demands)

/-- What the reading of JSON may come to: a value of the right shape, or a refusal. -/
def JsonShape : Except Json.Failure Json → Prop
  | .ok j => Decode.ComponentShape j
  | .error (.refused _) => True
  | .error (.integerTooLong _) => False

/-- The bytes that can be read: a text that is refused as JSON, or a value of the right shape. -/
def Readable (bytes : ByteArray) : Prop :=
  match Text.ofUtf8? bytes with
  | some text => JsonShape (Json.parse (Text.unifyBreaks text))
  | none => False

theorem ofText_demands (path text : Text) :
    Demands (Component.ofText path text) (JsonShape (Json.parse text)) := by
  rw [Component.ofText]
  cases Json.parse text with
  | ok j => exact Decode.component_demands j
  | error failure =>
    cases failure with
    | refused r => exact .refused rfl
    | integerTooLong digits => exact Demands.crash rfl

theorem ofBytes_demands (path : Text) (bytes : ByteArray) :
    Demands (Component.ofBytes path bytes) (Readable bytes) := by
  rw [Component.ofBytes, Readable]
  cases Text.ofUtf8? bytes with
  | some text => exact ofText_demands path _
  | none => exact Demands.crash rfl

end Component

end ElementCompiler
