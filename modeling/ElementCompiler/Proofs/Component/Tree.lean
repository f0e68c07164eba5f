import ElementCompiler.Proofs.Component.Parts
import ElementCompiler.Proofs.Entries

set_option autoImplicit false

/-!
Trees of nodes are read back as they are written, else branches included. A tree is read back with
any fuel above the depth of what is written for it.
-/

namespace ElementCompiler

open Attempt

def writtenNode (name : Json) (properties bindings : Entries Json) (children : List Json)
    (scope : Scope) (metadata : Entries Json Key) : Json :=
  .object [
    ("name", name), ("properties", .object properties), ("bindings", .object bindings),
    ("children", .arr children), ("scope", Encode.scope scope), ("meta", .obj metadata)]

theorem toJsons_eq_ok {ns : List Node} {js : List Json} :
    toJsons ns = .ok js ↔ List.Forall₂ (fun n j => n.toJson = .ok j) ns js := by
  induction ns generalizing js with
  | nil =>
    rw [toJsons, List.forall₂_nil_left_iff]
    exact ⟨fun h => (Except.ok.inj h).symm, fun h => by rw [h]⟩
  | cons n ns ih =>
    rw [toJsons, bind_eq_ok]
    constructor
    · rintro ⟨j, hj, h⟩
      obtain ⟨js, hjs, h⟩ := bind_eq_ok.mp h
      obtain rfl := Except.ok.inj h
      exact .cons hj (ih.mp hjs)
    · intro h
      cases h with
      | @cons _ j _ js hj hjs => exact ⟨j, hj, bind_eq_ok.mpr ⟨js, ih.mpr hjs, rfl⟩⟩

namespace Decode

theorem scope_written (s : Scope) : scope (Encode.scope s) = .ok s := by
  obtain ⟨forName, indexName, collectionName⟩ := s
  have hkeys : (Entries.keys [(Text.ofString "forName", forName), ("indexName", indexName),
      ("collectionName", collectionName)]).Nodup := by
    change List.Nodup [Text.ofString "forName", "indexName", "collectionName"]
    decide
  have hfor : (Encode.scope ⟨forName, indexName, collectionName⟩).field "forName" = .ok forName :=
    Json.field_sparse hkeys "forName"
  have hindex : (Encode.scope ⟨forName, indexName, collectionName⟩).field "indexName" =
      .ok indexName := Json.field_sparse hkeys "indexName"
  have hcollection : (Encode.scope ⟨forName, indexName, collectionName⟩).field "collectionName" =
      .ok collectionName := Json.field_sparse hkeys "collectionName"
  rw [scope, hfor, ok_bind, hindex, ok_bind, hcollection]
  rfl

section Written

variable (name : Json) (properties bindings : Entries Json) (children : List Json) (s : Scope)
  (metadata : Entries Json Key)

theorem attributes_writtenNode {bs : Entries (Option Binding)}
    (hbindings : Decode.bindings bindings = .ok bs) :
    attributes (writtenNode name properties bindings children s metadata) =
      .ok ⟨name, Entries.mapValues (fun v => .str v.display) properties, bs, children⟩ := by
  have hname : (writtenNode name properties bindings children s metadata).fieldD "name" (.str "") =
      .ok name := Json.fieldD_object _ _ _
  have hproperties : given "properties" (.obj [])
      (writtenNode name properties bindings children s metadata) = .ok (.object properties) :=
    given_obj rfl
  have hbindingsField : given "bindings" (.obj [])
      (writtenNode name properties bindings children s metadata) = .ok (.object bindings) :=
    given_obj rfl
  have hchildren : given "children" (.arr [])
      (writtenNode name properties bindings children s metadata) = .ok (.arr children) :=
    given_arr rfl
  rw [attributes, hname, ok_bind, hproperties, ok_bind, Json.entries_object, ok_bind,
    hbindingsField, ok_bind, Json.entries_object, ok_bind, hbindings, ok_bind, hchildren]
  rfl

theorem outline_writtenNode : outline (writtenNode name properties bindings children s metadata) =
    match Entries.get? metadata (.text elseKey) with
    | some (.obj fields) =>
      .ok ⟨Encode.scope s, Entries.put metadata (.text elseKey) .null, some (.obj fields)⟩
    | _ => .ok ⟨Encode.scope s, metadata, none⟩ := by
  have hscope : given "scope" (.obj [])
      (writtenNode name properties bindings children s metadata) = .ok (Encode.scope s) :=
    given_obj rfl
  have hmeta : given "meta" (.obj [])
      (writtenNode name properties bindings children s metadata) = .ok (.obj metadata) :=
    given_obj rfl
  rw [outline, hscope, ok_bind, hmeta]
  rfl

end Written

/-- What is read of a node beside the nodes below: its else branch left a null in its place, or it
    has none. -/
theorem outline_cases {j : Json} {o : Outline} (h : outline j = .ok o) :
    (o.branch = none ∧ ∀ fields, Entries.get? o.metadata (.text elseKey) ≠ some (.obj fields)) ∨
      ∃ metadata fields, o.branch = some (.obj fields) ∧
        o.metadata = Entries.put metadata (.text elseKey) .null := by
  obtain ⟨scope, _, h⟩ := bind_eq_ok.mp h
  obtain ⟨raw, _, h⟩ := bind_eq_ok.mp h
  obtain ⟨metadata, _, h⟩ := bind_eq_ok.mp h
  split at h
  next fields _ =>
    obtain rfl := Except.ok.inj h
    exact Or.inr ⟨metadata, fields, rfl, rfl⟩
  next hnone =>
    obtain rfl := Except.ok.inj h
    exact Or.inl ⟨rfl, hnone⟩

/-- The nodes of a list are written, and read back with fuel above the depth of what is written. -/
theorem nodes_written {fuel : Nat} {ds : List Json} {ns : List Node}
    (h : List.Forall₂ (fun d n => nodeWithin fuel d = .ok n) ds ns)
    (ih : ∀ {d : Json} {n : Node}, nodeWithin fuel d = .ok n → ∃ j, n.toJson = .ok j ∧
      j.isObject = true ∧ ∀ g, j.depth < g → nodeWithin g j = .ok n) :
    ∃ js, toJsons ns = .ok js ∧
      ∀ g, Json.depthItems js < g → js.mapM (nodeWithin g) = .ok ns := by
  induction h with
  | nil => exact ⟨[], rfl, fun _ _ => rfl⟩
  | cons hn _ hrest =>
    obtain ⟨j, hj, _, hread⟩ := ih hn
    obtain ⟨js, hjs, hreads⟩ := hrest
    refine ⟨j :: js, toJsons_eq_ok.mpr (.cons hj (toJsons_eq_ok.mp hjs)), fun g hg => ?_⟩
    rw [Json.depthItems] at hg
    exact mapM_eq_ok.mpr (.cons (hread g (by omega)) (mapM_eq_ok.mp (hreads g (by omega))))

theorem depth_le_put (es : Entries Json Key) (key : Key) (j : Json) :
    j.depth ≤ Json.depthFields (Entries.put es key j) := by
  induction es with
  | nil =>
    rw [Entries.put, Json.depthFields]
    omega
  | cons e es ih =>
    rw [Entries.put]
    split
    · rw [Json.depthFields]
      omega
    · rw [Json.depthFields]
      omega

/-- Items and entries of what is written for a node are two levels below it. -/
theorem depth_writtenNode (name : Json) (properties bindings : Entries Json) (children : List Json)
    (s : Scope) (metadata : Entries Json Key) :
    Json.depthItems children + 1 <
        (writtenNode name properties bindings children s metadata).depth ∧
      Json.depthFields metadata + 1 <
        (writtenNode name properties bindings children s metadata).depth := by
  simp only [writtenNode, Json.object, List.map_cons, List.map_nil, Json.depth, Json.depthFields]
  omega

/-- Literal attributes were read as texts, which are read as they are; the bindings were read. -/
theorem attributes_cases {j : Json} {a : Attributes} (h : attributes j = .ok a) :
    Entries.mapValues (fun v => Json.str v.display) a.properties = a.properties ∧
      ∃ fields, bindings fields = .ok a.bindings := by
  obtain ⟨name, _, h⟩ := bind_eq_ok.mp h
  obtain ⟨rawProperties, _, h⟩ := bind_eq_ok.mp h
  obtain ⟨properties, _, h⟩ := bind_eq_ok.mp h
  obtain ⟨rawBindings, _, h⟩ := bind_eq_ok.mp h
  obtain ⟨fields, _, h⟩ := bind_eq_ok.mp h
  obtain ⟨bs, hbs, h⟩ := bind_eq_ok.mp h
  obtain ⟨rawChildren, _, h⟩ := bind_eq_ok.mp h
  obtain ⟨items, _, h⟩ := bind_eq_ok.mp h
  obtain rfl := Except.ok.inj h
  refine ⟨?_, fields, hbs⟩
  change Entries.mapValues (fun v => Json.str v.display)
    (Entries.mapValues (fun v => Json.str v.display) properties) =
      Entries.mapValues (fun v => Json.str v.display) properties
  rw [Entries.mapValues, Entries.mapValues, List.map_map]
  rfl

/-- A written node is read back when the nodes below it are, with any fuel above its depth. -/
theorem nodeWithin_writtenNode {name : Json} {properties bindings : Entries Json}
    {children : List Json} {s : Scope} {metadata kept : Entries Json Key} {branchJson : Option Json}
    {branch : Option Node} {bs : Entries (Option Binding)} {nodes : List Node}
    (hproperties : Entries.mapValues (fun v => Json.str v.display) properties = properties)
    (houtline : outline (writtenNode name properties bindings children s metadata) =
      .ok ⟨Encode.scope s, kept, branchJson⟩)
    (hbranch : ∀ fuel, Json.depthFields metadata < fuel →
      branchJson.mapM (nodeWithin fuel) = .ok branch)
    (hbindings : Decode.bindings bindings = .ok bs)
    (hchildren : ∀ fuel, Json.depthItems children < fuel →
      children.mapM (nodeWithin fuel) = .ok nodes) (fuel : Nat)
    (hfuel : (writtenNode name properties bindings children s metadata).depth < fuel) :
    nodeWithin fuel (writtenNode name properties bindings children s metadata) =
      .ok ⟨name, properties, bs, nodes, s, branch, kept⟩ := by
  have hdepth := depth_writtenNode name properties bindings children s metadata
  obtain ⟨k, rfl⟩ : ∃ k, fuel = k + 1 := ⟨fuel - 1, by omega⟩
  have hattributes := attributes_writtenNode name properties bindings children s metadata hbindings
  change (outline (writtenNode name properties bindings children s metadata) >>= _) = _
  rw [houtline, ok_bind, hbranch k (by omega), ok_bind, hattributes, ok_bind,
    hchildren k (by omega), ok_bind, scope_written, hproperties]
  rfl

/-- A tree that was read is written, and what is written for it is read as the same tree. -/
theorem nodeWithin_written (fuel : Nat) {d : Json} {n : Node} (h : nodeWithin fuel d = .ok n) :
    ∃ j, n.toJson = .ok j ∧ j.isObject = true ∧ ∀ g, j.depth < g → nodeWithin g j = .ok n := by
  induction fuel generalizing d n with
  | zero => simp [nodeWithin] at h
  | succ fuel ih =>
    rw [nodeWithin] at h
    split at h
    next => simp at h
    next =>
      obtain ⟨o, ho, h⟩ := bind_eq_ok.mp h
      obtain ⟨branch, hbranch, h⟩ := bind_eq_ok.mp h
      obtain ⟨a, ha, h⟩ := bind_eq_ok.mp h
      obtain ⟨children, hchildren, h⟩ := bind_eq_ok.mp h
      obtain ⟨s, _, h⟩ := bind_eq_ok.mp h
      obtain rfl := Except.ok.inj h
      obtain ⟨name, properties, bs, items⟩ := a
      obtain ⟨hproperties, fields, hbs⟩ := attributes_cases ha
      obtain ⟨written, hwritten, hbindings⟩ := bindings_written hbs
      obtain ⟨js, hjs, hreads⟩ := nodes_written (mapM_eq_ok.mp hchildren) ih
      rcases outline_cases ho with ⟨hnone, hplain⟩ | ⟨metadata, branchFields, hsome, hkept⟩
      · rw [hnone] at hbranch
        obtain rfl := Except.ok.inj hbranch
        have houtline : outline (writtenNode name properties written js s o.metadata) =
            .ok ⟨Encode.scope s, o.metadata, none⟩ := by
          rw [outline_writtenNode]
          split
          next fields hfields => exact absurd hfields (hplain fields)
          next => rfl
        refine ⟨writtenNode name properties written js s o.metadata, ?_, rfl,
          nodeWithin_writtenNode hproperties houtline (fun _ _ => rfl) hbindings hreads⟩
        rw [Node.toJson, withBranch, ok_bind, hwritten, ok_bind, hjs]
        rfl
      · rw [hsome] at hbranch
        obtain ⟨nb, hnb, hbranch⟩ := bind_eq_ok.mp hbranch
        obtain rfl := Except.ok.inj hbranch
        obtain ⟨jb, hjb, hobject, hreadBranch⟩ := ih hnb
        -- the written branch takes the place that the null has kept
        have houtline : outline (writtenNode name properties written js s
            (Entries.put metadata (.text elseKey) jb)) =
              .ok ⟨Encode.scope s, o.metadata, some jb⟩ := by
          rw [outline_writtenNode, Entries.get?_put_self, Entries.put_put, hkept]
          cases jb with
          | obj fields => rfl
          | _ => exact absurd hobject Bool.false_ne_true
        have hread : ∀ k, Json.depthFields (Entries.put metadata (.text elseKey) jb) < k →
            (some jb).mapM (nodeWithin k) = .ok (some nb) := by
          intro k hk
          have hbelow := depth_le_put metadata (.text elseKey) jb
          change (nodeWithin k jb >>= fun n => Except.ok (some n)) = _
          rw [hreadBranch k (by omega)]
          rfl
        refine ⟨writtenNode name properties written js s (Entries.put metadata (.text elseKey) jb), ?_,
          rfl, nodeWithin_writtenNode hproperties houtline hread hbindings hreads⟩
        rw [Node.toJson, withBranch, hjb, hkept]
        change (Except.ok (Entries.put (Entries.put metadata (.text elseKey) .null) _ jb) >>= _) = _
        rw [Entries.put_put, ok_bind, hwritten, ok_bind, hjs]
        rfl

theorem node_written {d : Json} {n : Node} (h : node d = .ok n) :
    ∃ j, n.toJson = .ok j ∧ node j = .ok n := by
  obtain ⟨j, hj, _, hread⟩ := nodeWithin_written (d.depth + 1) h
  exact ⟨j, hj, hread (j.depth + 1) (Nat.lt_succ_self _)⟩

theorem mapM_node_written {ds : List Json} {ns : List Node} (h : ds.mapM node = .ok ns) :
    ∃ js, toJsons ns = .ok js ∧ js.mapM node = .ok ns := by
  rw [mapM_eq_ok] at h
  induction h with
  | nil => exact ⟨[], rfl, rfl⟩
  | cons hn _ ih =>
    obtain ⟨j, hj, hread⟩ := node_written hn
    obtain ⟨js, hjs, hreads⟩ := ih
    exact ⟨j :: js, toJsons_eq_ok.mpr (.cons hj (toJsons_eq_ok.mp hjs)),
      mapM_eq_ok.mpr (.cons hread (mapM_eq_ok.mp hreads))⟩

end Decode

end ElementCompiler
