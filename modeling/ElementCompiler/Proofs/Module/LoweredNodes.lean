import ElementCompiler.Proofs.Markup.Elements
import ElementCompiler.Proofs.Module.Assembly
import ElementCompiler.Proofs.Module.Lowering

set_option autoImplicit false

/-!
The nodes of a lowered component. Each is what a node was made into by both passes over its
bindings: its name and its properties stay, and of every binding only the code is changed. The view
of a module is the markup of these nodes.
-/

namespace ElementCompiler

open Attempt Text

namespace Visitor

section Entries

variable {α : Type} {f g : Text → α → Attempt α} {es es₁ es' : Entries α}

/-- Two visits of the entries are one. -/
theorem visited_comp (h : List.Forall₂ (EntryVisited f) es es₁)
    (h' : List.Forall₂ (EntryVisited g) es₁ es') :
    List.Forall₂ (EntryVisited fun key a => f key a >>= g key) es es' := by
  induction h generalizing es' with
  | nil =>
    obtain rfl := List.forall₂_nil_left_iff.mp h'
    exact .nil
  | cons he _ ih =>
    obtain ⟨e', rest, he', hrest, rfl⟩ := List.forall₂_cons_left_iff.mp h'
    refine .cons ⟨he'.1.trans he.1, bind_eq_ok.mpr ⟨_, he.2, ?_⟩⟩ (ih hrest)
    rw [← he.1]
    exact he'.2

theorem eq_of_visited_pure (h : List.Forall₂ (EntryVisited fun _ => (pure : α → Attempt α)) es es') :
    es' = es := by
  induction h with
  | nil => rfl
  | cons he _ ih => rw [ih, Prod.ext he.1 (Except.ok.inj he.2).symm]

end Entries

end Visitor

namespace Module

/-- What becomes of a binding: the refs in its code are relocated, unless it declares one, and then
    its members. -/
def loweredBinding (fields : List (Text × Text)) (m : Members) (key : Text) (b : Option Binding) :
    Attempt (Option Binding) :=
  (refSteps fields instanceLead).binding key b >>= onBindingCode m.bindingCode

/-- The code of a binding with its refs in place. -/
def refCode (fields : List (Text × Text)) (key : Text) (code : Json) : Attempt Json :=
  if key == "ref" then .ok code else Snippet.relocateRefs fields "" code

/-- What lowering leaves and what it changes of a node, the nodes below it apart. -/
structure NodeLowered (fields : List (Text × Text)) (m : Members) (n n' : Node) : Prop where
  name : n'.name = n.name
  scope : n'.scope = n.scope
  properties : n'.properties = n.properties
  bindings : List.Forall₂ (Visitor.EntryVisited (loweredBinding fields m)) n.bindings n'.bindings

section Lowered

variable {fields : List (Text × Text)} {m : Members} {c c' : Component} {n n' : Node}

theorem onBindingCode_some {f : Json → Attempt Json} {b b' : Option Binding}
    (h : onBindingCode f b = .ok b') :
    ∃ x code, b = some x ∧ f x.code = .ok code ∧ b' = some { x with code } := by
  cases b with
  | none => cases h
  | some x =>
    obtain ⟨code, hcode, rfl⟩ := onBindingCode_eq_ok.mp h
    exact ⟨x, code, rfl, hcode, rfl⟩

theorem loweredBinding_eq_ok {key : Text} {b b' : Option Binding}
    (h : loweredBinding fields m key b = .ok b') : ∃ x code code', b = some x ∧
      refCode fields key x.code = .ok code ∧ m.bindingCode code = .ok code' ∧
      b' = some { x with code := code' } := by
  obtain ⟨b₁, hfirst, hsecond⟩ := bind_eq_ok.mp h
  obtain ⟨y, code', rfl, hcode', rfl⟩ := onBindingCode_some hsecond
  change (if key == "ref" then pure b else onBindingCode _ b) = .ok (some y) at hfirst
  by_cases hkey : (key == ofString "ref") = true
  · rw [if_pos hkey] at hfirst
    obtain rfl := Except.ok.inj hfirst
    exact ⟨y, y.code, code', rfl, if_pos hkey, hcode', rfl⟩
  · rw [if_neg hkey] at hfirst
    obtain ⟨x, code, rfl, hcode, hy⟩ := onBindingCode_some hfirst
    obtain rfl := Option.some.inj hy
    exact ⟨x, code, code', rfl, (if_neg hkey).trans hcode, hcode', rfl⟩

/-- Both passes over a node, one after the other. -/
theorem nodeLowered_of_visited {n₁ : Node}
    (hfirst : Visitor.NodeVisited (refSteps fields instanceLead) n n₁) {callableNames : List Text}
    (hsecond : Visitor.NodeVisited (m.processor callableNames).steps n₁ n') : NodeLowered fields m n n' where
  name := hsecond.name.trans hfirst.name
  scope := hsecond.scope.trans hfirst.scope
  properties := by
    rw [Visitor.eq_of_visited_pure hsecond.properties, Visitor.eq_of_visited_pure hfirst.properties]
  bindings := Visitor.visited_comp hfirst.bindings hsecond.bindings

/-- The nodes of a lowered component are what the nodes were made into, one by one. -/
theorem nodes_lowered (hc : c.HasTexts) (h : lowered .empty m c = .ok c') :
    List.Forall₂ (NodeLowered (c.refFields m.domRefs) m) c.nodes c'.nodes := by
  obtain ⟨c₁, hrefs, hvisit⟩ := lowered_eq_ok.mp h
  have hfirst := (visited_of_mapRefs hc hrefs).nodes
  have hsecond := (Visitor.visited_of_visit hvisit).nodes
  generalize c.nodes = ns, c₁.nodes = ns₁, c'.nodes = ns' at hfirst hsecond
  induction hfirst generalizing ns' with
  | nil =>
    obtain rfl := List.forall₂_nil_left_iff.mp hsecond
    exact .nil
  | cons hn _ ih =>
    obtain ⟨n', rest, hn', hrest, rfl⟩ := List.forall₂_cons_left_iff.mp hsecond
    exact .cons (nodeLowered_of_visited hn hn') (ih _ hrest)

/-- Each node of a lowered component is what a node was made into. -/
theorem exists_nodeLowered (hc : c.HasTexts) (h : lowered .empty m c = .ok c') :
    ∀ n' ∈ c'.nodes, ∃ n ∈ c.nodes, NodeLowered (c.refFields m.domRefs) m n n' :=
  exists_left (nodes_lowered hc h)

/-- The spread bindings stay, and with them what their keys name. -/
theorem NodeLowered.spreadTargets_subset (h : NodeLowered fields m n n') :
    ∀ t ∈ Markup.spreadTargets n', t ∈ Markup.spreadTargets n := by
  intro t ht
  obtain ⟨b', hb', ht⟩ := List.mem_filterMap.mp ht
  obtain ⟨b, hb, hkey, hlowered⟩ := exists_left h.bindings b' hb'
  obtain ⟨x, code, code', hx, _, _, hx'⟩ := loweredBinding_eq_ok hlowered
  refine List.mem_filterMap.mpr ⟨b, hb, ?_⟩
  rw [hx', hkey] at ht
  rw [hx]
  exact ht

end Lowered

/-- The view of a module is the markup of its component, lowered for its members. -/
structure RendersView (o : CompileOptions) (c : Component) (a : Assembled) (m : Members)
    (c' : Component) (block : Markup.Block) : Prop where
  collect : Members.collect o c = .ok m
  lowered : lowered .empty m c = .ok c'
  rendered : Markup.renderChildren ⟨.templateRoot, [], c'.callableNames⟩ "\n  " c'.children = .ok block
  view : ∃ tags, a.parts.view = assembleView o.targetVersion tags (block.text ++ viewTail c')
  sections : ∃ p, p.members = m ∧ sections c' p = .ok a.parts.sections

section View

variable {o : CompileOptions} {c c' : Component} {a : Assembled} {m : Members} {block : Markup.Block}

theorem exists_rendersView (h : build o .empty c = .ok a) :
    ∃ m c' block, RendersView o c a m c' block := by
  obtain ⟨experimental, c', body, p, hbuilds⟩ := exists_buildsModule h
  obtain ⟨block, hblock, hbody⟩ := bind_eq_ok.mp hbuilds.shown
  obtain rfl := Except.ok.inj hbody
  exact ⟨p.members, c', block, hbuilds.collect, hbuilds.lowered, hblock, hbuilds.view, p, rfl, hbuilds.sections⟩

/-- Every tag of the view is opened by what a node of the component was made into. -/
theorem RendersView.exists_opensTag (h : RendersView o c a m c' block) (hc : c.HasTexts)
    {p : Markup.Piece} (hp : p ∈ block.pieces) (htag : p.isTag = true) :
    ∃ n ∈ c.nodes, ∃ n', NodeLowered (c.refFields m.domRefs) m n n' ∧ Markup.OpensTag n' p := by
  obtain ⟨n', hn', hopens⟩ := (Markup.shows_renderChildren h.rendered).tags p hp htag
  obtain ⟨n, hn, hnode⟩ :=
    exists_nodeLowered hc h.lowered n' (Markup.mem_subtrees_of_rendered _ n' hn')
  exact ⟨n, hn, n', hnode, hopens⟩

end View

end Module
end ElementCompiler
