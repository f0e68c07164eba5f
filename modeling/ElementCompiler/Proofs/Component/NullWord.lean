import ElementCompiler.Markup.Tag
import ElementCompiler.Proofs.Component.Refs
import ElementCompiler.Proofs.Json.Nulls
import ElementCompiler.Proofs.Snippet.Ends
import ElementCompiler.Proofs.Snippet.NullWord

set_option autoImplicit false

/-!
Components that show no missing value: nothing that a module has of them shows as the word of a missing
value. A visit keeps them so when each of its steps does.
-/

namespace ElementCompiler

open Attempt

namespace Json

/-- The value shows without the word of a missing value. -/
def ShowsNullFree (j : Json) : Prop := Text.NullFree j.display

section Texts

variable {j : Json} {fault : Fault} {s : Text}

theorem ShowsNullFree.textOr (hj : j.ShowsNullFree) (h : j.textOr fault = .ok s) : Text.NullFree s := by
  rwa [textOr_eq_ok h] at hj

theorem NullFree.textOr (hj : j.NullFree) (h : j.textOr fault = .ok s) : Text.NullFree s := by
  rw [textOr_eq_ok h] at hj
  exact nullFree_str.mp hj

end Texts

/-- The value is no text, or a text that is broken off at its end. -/
def EndsOff (j : Json) : Prop := ∀ s, j = .str s → Snippet.EndsOff s

theorem endsOff_str {s : Text} (h : Snippet.EndsOff s) : EndsOff (.str s) := by
  rintro _ ⟨⟩
  exact h

/-- What a step of a pass makes of a value has the word of a missing value only if the value has it, and
    runs on at its end only if the value does. -/
structure Rewrites (j k : Json) : Prop where
  free : j.NullFree → k.NullFree
  shows : j.ShowsNullFree → k.ShowsNullFree
  ends : j.EndsOff → k.EndsOff

namespace Rewrites

variable {j k l : Json}

theorem refl (j : Json) : Rewrites j j := ⟨id, id, id⟩

theorem trans (h : Rewrites j k) (h' : Rewrites k l) : Rewrites j l :=
  ⟨h'.free ∘ h.free, h'.shows ∘ h.shows, h'.ends ∘ h.ends⟩

theorem text {f : Text → Text} (hfree : ∀ {s}, Text.NullFree s → Text.NullFree (f s))
    (hends : ∀ {s}, Snippet.EndsOff s → Snippet.EndsOff (f s)) (s : Text) : Rewrites (.str s) (.str (f s)) where
  free h := nullFree_str.mpr (hfree (nullFree_str.mp h))
  shows := hfree
  ends h := endsOff_str (hends (h s rfl))

end Rewrites

end Json

namespace Snippet

open Json (Rewrites)

variable {f : Text → Text} (hfree : ∀ {s}, Text.NullFree s → Text.NullFree (f s)) (hends : KeepsEnd f)
include hfree hends

end Snippet

structure Binding.NullFree (b : Binding) : Prop where
  code : b.code.ShowsNullFree
  rawCode : b.rawCode.NullFree

/-- What fills a slot of the node is broken off at its end, for it stands before other text. -/
def Node.SlotsEndOff (n : Node) : Prop :=
  ∀ b ∈ n.bindings, Markup.isSlotKey b.1 = true → ∀ x, b.2 = some x → x.code.EndsOff

/-- The node shows no missing value: its attributes and its code have none, and a loop has a variable. -/
structure Node.NullFree (n : Node) : Prop where
  name : n.name.NullFree
  properties : ∀ p ∈ n.properties, Text.NullFree p.1 ∧ p.2.ShowsNullFree
  bindings : ∀ b ∈ n.bindings, Text.NullFree b.1 ∧ ∀ x, b.2 = some x → x.NullFree
  slots : n.SlotsEndOff
  forName : n.isLoop = true → n.scope.forName.ShowsNullFree

theorem Node.NullFree.binding? {n : Node} (hn : n.NullFree) {key : Text} {x : Binding}
    (hx : n.binding? key = some x) : x.NullFree := by
  rw [Node.binding?, Option.join_eq_some_iff] at hx
  obtain ⟨k, hk⟩ := Entries.mem_of_get? hx
  exact (hn.bindings _ hk).2 x rfl

/-- State shows no missing value, neither the names nor the code. -/
def StateValue.AreNullFree (state : Entries StateValue) : Prop :=
  ∀ s ∈ state, Text.NullFree s.1 ∧ s.2.code.ShowsNullFree

structure RefSpec.NullFree (r : RefSpec) : Prop where
  argument : r.argument.NullFree
  typeParameter : r.typeParameter.isGiven = true → r.typeParameter.ShowsNullFree

structure ContextWrite.NullFree (w : ContextWrite) : Prop where
  name : w.name.isGiven = true → w.name.ShowsNullFree
  value : ∀ state, w.value = some state → StateValue.AreNullFree state
  ref : w.ref.NullFree

/-- The name of the element, as the metadata give it. -/
def elementNameOf (metadata : Entries Json Key) : Json :=
  match Entries.get? metadata (.text "aurelia") with
  | some (.obj aurelia) => Json.part aurelia "element_name"
  | _ => .null

/-- The component shows no missing value. What is shown only when it is given may be missing. -/
structure Component.NullFree (c : Component) : Prop where
  name : c.name.NullFree
  nodes : ∀ n ∈ c.nodes, n.NullFree
  state : StateValue.AreNullFree c.state
  props : ∀ p ∈ c.props, p.NullFree
  propsTypeRef : c.propsTypeRef.isGiven = true → c.propsTypeRef.ShowsNullFree
  defaultProps : ∀ d ∈ c.defaultProps, Text.NullFree d.1 ∧ d.2.ShowsNullFree
  refs : ∀ r ∈ c.refs, Text.NullFree r.1 ∧ r.2.NullFree
  hooks : ∀ code ∈ c.hooks.codes, code.NullFree
  deps : ∀ u ∈ c.hooks.onUpdate, ∀ d ∈ u.deps, d.ShowsNullFree
  reads : ∀ r ∈ c.context.reads, Text.NullFree r.1 ∧ (r.2.name.isGiven = true → r.2.name.ShowsNullFree)
  writes : ∀ w ∈ c.context.writes, w.NullFree
  imports : ∀ d ∈ c.imports, d.path.NullFree ∧ ∀ e ∈ d.imports, (Json.ofKey e.1).NullFree ∧ e.2.NullFree
  exports : ∀ e ∈ c.exports, Text.NullFree e.1 ∧ e.2.code.NullFree
  elementName : (elementNameOf c.metadata).isGiven = true → (elementNameOf c.metadata).ShowsNullFree
  types : ∀ t ∈ c.types, t.ShowsNullFree
  css : c.css.isGiven = true → c.css.ShowsNullFree

namespace Visitor

variable {v : Visitor Attempt}

/-- Each step rewrites what it meets. -/
structure KeepsNullFree (v : Visitor Attempt) : Prop where
  hook : ∀ {j k}, v.hook j = .ok k → j.Rewrites k
  deps : ∀ {ds ds'}, v.deps ds = .ok ds' → List.Forall₂ Json.Rewrites ds ds'
  state : ∀ {j k}, v.state j = .ok k → j.Rewrites k
  refArgument : ∀ {j k}, v.refArgument j = .ok k → j.Rewrites k
  binding : ∀ {key b x'}, v.binding key b = .ok (some x') →
    ∃ x code, b = some x ∧ x' = { x with code } ∧ x.code.Rewrites code
  property : ∀ {j k}, v.property j = .ok k → j.Rewrites k

namespace KeepsNullFree

theorem node (hkeeps : v.KeepsNullFree) {n n' : Node} (h : NodeVisited v n n') (hn : n.NullFree) :
    n'.NullFree where
  name := by rw [h.name]; exact hn.name
  properties p' hp' := by
    obtain ⟨p, hp, hkey, hstep⟩ := exists_left h.properties p' hp'
    rw [hkey]
    exact (hn.properties p hp).imp_right (hkeeps.property hstep).shows
  bindings b' hb' := by
    obtain ⟨b, hb, hkey, hstep⟩ := exists_left h.bindings b' hb'
    obtain ⟨hname, hbinding⟩ := hn.bindings b hb
    refine ⟨hkey ▸ hname, fun x' hx' => ?_⟩
    rw [hx'] at hstep
    obtain ⟨x, code, hx, rfl, hcode⟩ := hkeeps.binding hstep
    exact ⟨hcode.shows (hbinding x hx).code, (hbinding x hx).rawCode⟩
  slots b' hb' hslot x' hx' := by
    obtain ⟨b, hb, hkey, hstep⟩ := exists_left h.bindings b' hb'
    rw [hx'] at hstep
    obtain ⟨x, code, hx, rfl, hcode⟩ := hkeeps.binding hstep
    exact hcode.ends (hn.slots b hb (hkey ▸ hslot) x hx)
  forName hloop := by
    rw [h.scope]
    rw [Node.isLoop, h.name] at hloop
    exact hn.forName hloop

theorem component (hkeeps : v.KeepsNullFree) {c c' : Component} (h : Visited v c c') (hc : c.NullFree) :
    c'.NullFree := by
  have hstate : StateValue.AreNullFree c'.state := fun s' hs' => by
    obtain ⟨s, hs, hkey, hstep⟩ := exists_left h.state s' hs'
    obtain ⟨code, hcode, hvalue⟩ := visitState_eq_ok.mp hstep
    rw [hkey, hvalue]
    exact (hc.state s hs).imp_right (hkeeps.state hcode).shows
  have hrefs : ∀ r' ∈ c'.refs, Text.NullFree r'.1 ∧ r'.2.NullFree := fun r' hr' => by
    obtain ⟨r, hr, hkey, hstep⟩ := exists_left h.refs r' hr'
    obtain ⟨argument, hargument, hvalue⟩ := visitRef_eq_ok.mp hstep
    rw [hkey, hvalue]
    exact (hc.refs r hr).imp_right fun hfree =>
      ⟨(hkeeps.refArgument hargument).free hfree.argument, hfree.typeParameter⟩
  have hhooks : ∀ code' ∈ c'.hooks.codes, code'.NullFree := fun code' hcode' => by
    obtain ⟨code, hcode, hstep⟩ := h.hooks code' hcode'
    exact (hkeeps.hook hstep).free (hc.hooks code hcode)
  have hdeps : ∀ u' ∈ c'.hooks.onUpdate, ∀ d' ∈ u'.deps, d'.ShowsNullFree := fun u' hu' d' hd' => by
    obtain ⟨u, hu, hstep⟩ := h.deps u' hu'
    obtain ⟨d, hd, hrewrites⟩ := exists_left (hkeeps.deps hstep) d' hd'
    exact hrewrites.shows (hc.deps u hu d hd)
  have hnodes : ∀ n' ∈ c'.nodes, n'.NullFree := fun n' hn' => by
    obtain ⟨n, hn, hvisited⟩ := exists_left h.nodes n' hn'
    exact hkeeps.node hvisited (hc.nodes n hn)
  rw [h.rest] at hnodes ⊢
  exact { hc with nodes := hnodes, state := hstate, refs := hrefs, hooks := hhooks, deps := hdeps }

end KeepsNullFree
end Visitor
end ElementCompiler
