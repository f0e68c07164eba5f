import ElementCompiler.Proofs.Markup.SlotMarkup
import ElementCompiler.Proofs.Module.HandlerLiterals
import ElementCompiler.Proofs.Module.View
import ElementCompiler.Proofs.Snippet.Relocated
import ElementCompiler.Proofs.Snippet.UnusedName

set_option autoImplicit false

/-!
The markup of slots in the view. What refers to nothing of the component goes through the passes on refs
and members as it is, and stands in the element with the attribute of its slot; but double quotes are
encoded on the way, and then neither is the markup kept nor is the end of its first tag always found.
-/

namespace ElementCompiler.Module

open Attempt Markup Snippet Text

/-- Code that refers to nothing of its component: outside literals no member is reached through its group
    and none of the names of refs and outputs is used, and no current value of a ref is read anywhere. -/
structure HasNoReference (fields : List (Text × Text)) (outputs : List Text) (code : Text) : Prop where
  members : ReferenceFree code
  current : ∀ f ∈ fields, uses code (f.1 ++ ".current") = false
  refs : ∀ f ∈ fields, f.1 ≠ [] → ∀ run, .plain run ∈ segments code → uses run f.1 = false
  outputs : ∀ name ∈ outputs, name ≠ [] → ∀ run, .plain run ∈ segments code → uses run name = false

section Passes

variable {fields : List (Text × Text)} {m : Members} {key code shown : Text}

/-- Both passes leave code that refers to nothing. -/
theorem HasNoReference.shownCode_eq (h : HasNoReference fields m.outputVars code) (hkey : key ≠ "ref")
    (hshown : shownCode fields m key (.str code) = .ok (.str shown)) : shown = code := by
  obtain ⟨moved, hmoved, hshown⟩ := bind_eq_ok.mp hshown
  rw [refCode, if_neg (by simpa using hkey)] at hmoved
  obtain rfl := relocateRefs_eq_self h.current h.refs hmoved
  have houtputs : ∀ name ∈ m.outputVars.eraseDups, name ≠ [] → ∀ run, .plain run ∈ segments code →
      uses run name = false := fun name hname => h.outputs name (List.mem_eraseDups.mp hname)
  have hkept : relocateMembers m.outputVars instanceLead (.before "") code = code := by
    rw [relocateMembers, relocate_eq_self _ houtputs, h.members.strip]
  rw [onGiven, hkept, ite_self] at hshown
  exact (Json.str.inj (Except.ok.inj hshown)).symm

end Passes

section View

variable {n n' : Node} {place : Place} {x : Binding} {key code head close rest : Text}
  {fields : List (Text × Text)} {m : Members} {block k : Block}

theorem recoverView?_escaped (version : TargetVersion) (imports body : Text) :
    recoverView? version (unescapeTemplate (escapeTemplate (indentedView version imports body))) =
      some (viewContent imports body) := by
  rw [unescapeTemplate_escapeTemplate, recoverView?_indentedView]

/-- The markup for a slot as it stands in the text of a block around its element. -/
theorem exists_slot_in_text (hnode : NodeLowered fields m n n') (hk : renderNode place n' = .ok k)
    (hwithin : k.Within block) (helement : blockRule n' = .ok .element) (hvoid : Node.isVoid n' = false)
    (hb : (key, some x) ∈ n.bindings) (hrule : BindingRule.of key x.mode = .slot) (hcode : x.code = .str code)
    (hfree : HasNoReference fields m.outputVars code) (htag : FirstTag code head close rest) :
    ∃ before after,
      block.text = before ++ (markSlot (lower (slotName key)) (encodeQuotes code) ++ after) := by
  obtain ⟨shown, hshown, hb'⟩ := hnode.exists_shownCode hb
  rw [hcode] at hshown
  obtain rfl := hfree.shownCode_eq (key_ne_ref hrule (by decide)) hshown
  have hmem := slot_mem_pieces helement hvoid hk hb' hrule rfl
  -- the markup has the end of its tag, so the element shows something and stands in what is around it
  have hne : k.text ≠ [] := by
    obtain ⟨before, after, htext⟩ := exists_text_of_mem hmem
    rw [Block.text, htext]
    refine List.append_ne_nil_of_right_ne_nil _ (List.append_ne_nil_of_left_ne_nil ?_ _)
    exact markSlot_ne_nil (end_mem_encodeQuotes.mpr htag.end_mem)
  exact exists_text_of_mem ((hwithin hne).subset hmem)

end View

section Claim

variable {o : CompileOptions} {c : Component}

/-- Markup for a slot that refers to nothing of the component stands in the view, between the tags of its
    element, with the attribute of the slot put into it. That is the markup with the attribute before the
    end of its first tag, and else unchanged, exactly when it has no double quotes; where these are
    encoded, the end of the tag is still found exactly when no value in the tag has a `>`. A valid
    component is compiled when its refs have plain names. -/
theorem slot_markup_kept (hplugins : o.plugins = some .empty) (hgiven : o.suppressed.isGiven = false)
    (hc : c.HasTexts) :
    (∀ compiled, compile o c = .ok compiled → ∃ a log m c' block, build o .empty c = .ok a ∧
      finish o .empty a.parts.text = .ok (compiled.text, log) ∧ RendersView o c a m c' block ∧
      List.Forall₂ (NodeLowered (c.refFields m.domRefs) m) c.nodes c'.nodes ∧
      ∀ n n', NodeLowered (c.refFields m.domRefs) m n n' → blockRule n' = .ok .element →
        Node.isVoid n' = false →
        ∀ root ∈ c'.children, ∀ place, StandsIn ⟨.templateRoot, [], c'.callableNames⟩ root place n' →
        ∀ key x code head close rest, (key, some x) ∈ n.bindings → BindingRule.of key x.mode = .slot →
          x.code = .str code → HasNoReference (c.refFields m.domRefs) m.outputVars code →
          FirstTag code head close rest →
          (∃ before after, recoverView? o.targetVersion (unescapeTemplate a.parts.view) =
            some (before ++ (markSlot (lower (slotName key)) (encodeQuotes code) ++ after))) ∧
          (markSlot (lower (slotName key)) (encodeQuotes code) =
              withSlot (lower (slotName key)) head close rest ↔ CodePoint.char '"' ∉ code) ∧
          (markSlot (lower (slotName key)) (encodeQuotes code) =
              withSlot (lower (slotName key)) (encodeQuotes head) close (encodeQuotes rest) ↔
            CodePoint.char '>' ∉ head)) ∧
    (IsPlain o → c.IsTyped → c.validate = .ok () →
      (∀ domRefs, c.domRefs = .ok domRefs → ∀ f ∈ c.refFields domRefs, IsName f.1) →
      ∃ compiled, compile o c = .ok compiled) := by
  refine ⟨fun compiled hcompiled => ?_, fun ho htyped hvalid hrefs => ?_⟩
  · obtain ⟨_, a, log, hbuild, hfinish⟩ := compile_eq_ok hplugins hgiven hcompiled
    obtain ⟨m, c', block, hview⟩ := exists_rendersView hbuild
    obtain ⟨imports, himports⟩ := hview.view
    refine ⟨a, log, m, c', block, hbuild, hfinish, hview, nodes_lowered hc hview.lowered,
      fun n n' hnode helement hvoid root hroot place hstands key x code head close rest hb hrule hcode hfree
        htag => ⟨?_, htag.marked_iff, htag.placed_iff⟩⟩
    obtain ⟨k, hk, hbelow⟩ := exists_renderNode_of_children hview.rendered hroot
    obtain ⟨inner, hinner, hwithin⟩ := hstands.within hk
    obtain ⟨before, after, htext⟩ := exists_slot_in_text hnode hinner
      (fun hne => (hwithin hne).trans hbelow) helement hvoid hb hrule hcode hfree htag
    have hrecovered : recoverView? o.targetVersion (unescapeTemplate a.parts.view) =
        some (viewContent imports (block.text ++ viewTail c')) := by
      rw [himports]
      exact recoverView?_escaped _ _ _
    rw [hrecovered, viewContent_eq, htext]
    refine ⟨(if imports = [] then [] else .char '\n' :: (imports ++ [.char '\n'])) ++ .char '\n' :: before,
      after ++ viewTail c', congrArg some ?_⟩
    simp only [List.append_assoc, List.cons_append]
  · exact exists_compile_of_plainNames ho htyped hvalid fun domRefs hdomRefs f hf =>
      notMem_of_isName (hrefs domRefs hdomRefs f hf)

end Claim

/-- A component that shows a card with a header. -/
def page (code : Text) : Component where
  name := .str "Page"
  children := [⟨.str "Card", [], [("slotHeader", some (.ofCode (.str code) .normal))], [], .empty, none, []⟩]
  state := []
  props := []
  propsTypeRef := .null
  defaultProps := []
  refs := []
  hooks := ⟨none, none, [], none⟩
  context := ⟨[], []⟩
  imports := []
  exports := []
  metadata := []
  types := []
  css := .null

section Page

variable {code : Text} {fields : List (Text × Text)} {m : Members} {n' : Node}

theorem page_isTyped (code : Text) : (page code).IsTyped := by
  refine Component.IsBare.isTyped ⟨rfl, rfl, rfl, rfl, rfl⟩ (List.forall_mem_singleton.mpr ?_)
    (List.forall_mem_nil _) (List.forall_mem_nil _) (Component.resolvesTexts_of_none rfl rfl)
  exact ⟨⟨_, rfl⟩, List.forall_mem_nil _,
    List.forall_mem_singleton.mpr ⟨_, rfl, ⟨_, rfl⟩, .inr ⟨_, rfl⟩, .inl rfl⟩⟩

theorem page_refFields {domRefs : List Text} (h : (page code).domRefs = .ok domRefs) :
    (page code).refFields domRefs = [] := by
  obtain rfl : [] = domRefs := Except.ok.inj h
  rfl

/-- The card stays an element with a body. -/
theorem card_lowered (h : NodeLowered fields m
    ⟨.str "Card", [], [("slotHeader", some (.ofCode (.str code) .normal))], [], .empty, none, []⟩ n') :
    blockRule n' = .ok .element ∧ Node.isVoid n' = false := by
  obtain ⟨name, properties, bindings, children, scope, elseBranch, metadata⟩ := n'
  obtain ⟨rfl, -, rfl, hbindings⟩ := h
  obtain ⟨⟨key, b⟩, rest, ⟨rfl, -⟩, hrest, rfl⟩ := List.forall₂_cons_left_iff.mp hbindings
  obtain rfl := List.forall₂_nil_left_iff.mp hrest
  exact ⟨rfl, rfl⟩

theorem hasNoReference_of_noPoint (h : CodePoint.char '.' ∉ code) : HasNoReference [] [] code where
  members := referenceFree_of_noPoint h
  current := by rintro _ ⟨⟩
  refs := by rintro _ ⟨⟩
  outputs := by rintro _ ⟨⟩

theorem first_node_mem {c : Component} {n : Node} {ns : List Node} (h : c.nodes = n :: ns) : n ∈ c.children := by
  unfold Component.nodes at h
  generalize c.children = roots at h
  cases roots with
  | nil => cases h
  | cons root roots =>
    obtain ⟨name, properties, bindings, children, scope, elseBranch, metadata⟩ := root
    exact (List.cons.inj h).1 ▸ List.mem_cons_self

end Page

theorem slot_markup_kept_page : ∃ compiled, ∃ a : Assembled, ∃ before after,
    compile (formattedBy none) (page "<h1>Title</h1>") = .ok compiled ∧
    build (formattedBy none) .empty (page "<h1>Title</h1>") = .ok a ∧
    recoverView? .v1 (unescapeTemplate a.parts.view) = some (before ++ (ofString "<h1 header>Title</h1>" ++ after)) := by
  have htag : FirstTag "<h1>Title</h1>" "h1" ">" "Title</h1>" :=
    ⟨rfl, by decide, .inr ⟨rfl, by decide⟩⟩
  obtain ⟨hkept, hcompiles⟩ := slot_markup_kept (o := formattedBy none) (c := page "<h1>Title</h1>") rfl rfl
    (page_isTyped _).code
  obtain ⟨compiled, hcompiled⟩ := hcompiles (isPlain_formattedBy none) (page_isTyped _) rfl
    fun domRefs hdomRefs => by rw [page_refFields hdomRefs]; rintro _ ⟨⟩
  obtain ⟨a, log, m, c', block, hbuild, -, hview, hnodes, hshown⟩ := hkept compiled hcompiled
  obtain ⟨n', rest, hnode, hrest, hsame⟩ := List.forall₂_cons_left_iff.mp hnodes
  obtain ⟨helement, hvoid⟩ := card_lowered hnode
  have hfree : HasNoReference ((page "<h1>Title</h1>").refFields m.domRefs) m.outputVars "<h1>Title</h1>" := by
    rw [page_refFields (collect_names hview.collect).2.2,
      outputVars_of_isPlain (isPlain_formattedBy none) hview.collect]
    exact hasNoReference_of_noPoint (by decide)
  obtain ⟨⟨before, after, hrecovered⟩, hmarked, -⟩ := hshown _ n' hnode helement hvoid n' (first_node_mem hsame) _
    (.self _ _) "slotHeader" _ _ _ _ _ List.mem_cons_self rfl rfl hfree htag
  have hquote : CodePoint.char '"' ∉ ofString "<h1>Title</h1>" := by decide
  rw [hmarked.mpr hquote] at hrecovered
  exact ⟨compiled, a, before, after, hcompiled, hbuild, hrecovered⟩

/-- A quoted value is shown with marks for its quotes, although it stands in no attribute of its own. -/
theorem quoted_slot_markup_encoded :
    FirstTag "<h1 class=\"big\">Title</h1>" "h1 class=\"big\"" ">" "Title</h1>" ∧
    HasNoReference [] [] "<h1 class=\"big\">Title</h1>" ∧
    (page "<h1 class=\"big\">Title</h1>").validate = .ok () ∧
    ∃ compiled, ∃ a : Assembled, ∃ view,
      compile (formattedBy none) (page "<h1 class=\"big\">Title</h1>") = .ok compiled ∧
      build (formattedBy none) .empty (page "<h1 class=\"big\">Title</h1>") = .ok a ∧
      recoverView? .v1 (unescapeTemplate a.parts.view) = some view ∧
      occursIn "<h1 class=&quot;big&quot; header>Title</h1>" view = true ∧
      occursIn "<h1 class=\"big\" header>Title</h1>" view = false := by
  have hbuilt : ((build (formattedBy none) .empty (page "<h1 class=\"big\">Title</h1>")).toOption.any fun a =>
      (recoverView? .v1 (unescapeTemplate a.parts.view)).any fun view =>
        occursIn "<h1 class=&quot;big&quot; header>Title</h1>" view &&
          !occursIn "<h1 class=\"big\" header>Title</h1>" view) = true := by decide +kernel
  obtain ⟨compiled, hcompiled⟩ := exists_compile_of_plainNames (isPlain_formattedBy none)
    (page_isTyped "<h1 class=\"big\">Title</h1>") rfl
    fun domRefs hdomRefs => by rw [page_refFields hdomRefs]; rintro _ ⟨⟩
  obtain ⟨_, a, _, hbuild, _⟩ := compile_eq_ok rfl rfl hcompiled
  rw [hbuild] at hbuilt
  change (recoverView? .v1 (unescapeTemplate a.parts.view)).any _ = true at hbuilt
  obtain ⟨view, hview, hshown⟩ := (Option.any_eq_true _ _).mp hbuilt
  rw [Bool.and_eq_true, Bool.not_eq_true'] at hshown
  exact ⟨⟨rfl, by decide, .inr ⟨rfl, by decide⟩⟩, hasNoReference_of_noPoint (by decide), rfl,
    compiled, a, view, hcompiled, hbuild, hview, hshown⟩

end ElementCompiler.Module
