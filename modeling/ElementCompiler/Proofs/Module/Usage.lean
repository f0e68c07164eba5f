import ElementCompiler.Proofs.Markup.Closing
import ElementCompiler.Proofs.Module.Imports
import ElementCompiler.Proofs.Module.LoweredTexts

set_option autoImplicit false

/-!
Whether an import is used as an element. It is looked for in the markup by its closing tag; when no
text of the component opens a tag, that finds exactly the elements, templates, slots and styles that
are rendered.
-/

namespace ElementCompiler

open Attempt Text Markup

namespace Module

/-- What stands behind the markup of the children. -/
def tailPieces (c : Component) : List Piece :=
  .raw (if c.hooks.onUpdate.isEmpty then "" else "$\x7b" ++ observerName ++ "\x7d") ::
    if c.css.isGiven then .raw "\n\n" :: element "style" [] [.raw c.css.display] else []

/-- What closes a tag in the view of a component: a rendered element of that selector, a loop or a
    conditional, a slot, the styles. -/
def ClosesInView (c : Component) (tag : Text) : Prop :=
  (∃ n ∈ renderedChildren c.children, ClosesElement n tag) ∨
    (tag = templateTag ∧ ∃ n ∈ renderedChildren c.children, ShowsTemplate n) ∨
    (tag = ofString "slot" ∧ ∃ n ∈ renderedChildren c.children, ShowsSlot n) ∨
    (tag = ofString "style" ∧ c.css.isGiven = true)

section View

variable {c : Component}

theorem piecesText_tailPieces : piecesText (tailPieces c) = viewTail c := by
  rw [tailPieces, viewTail, piecesText]
  refine congrArg₂ _ rfl ?_
  split
  next => simp [piecesText, element, Piece.text, attributesText, ofString]
  next => rfl

theorem closesTags_tailPieces (hcss : Lacks isOpening c.css.display) :
    ClosesTags (tailPieces c) fun k => k = ofString "style" ∧ c.css.isGiven = true := by
  have hobserver : TagFree (if c.hooks.onUpdate.isEmpty then ofString "" else
      "$\x7b" ++ observerName ++ "\x7d") := by
    split <;> decide
  have hstyle : IsTagName (ofString "style") := by
    unfold IsTagName
    decide
  refine ClosesTags.raw (isAngular_isOpening.lacks hobserver) ?_
  split
  next hgiven =>
    have helement := closesTags_element (isClear_tag hstyle.isTagStart (List.forall_mem_nil _))
      hstyle.tagFree (closesTags_nil.raw hcss)
    have hbreak : Lacks isOpening (ofString "\n\n") := isAngular_isOpening.lacks (by decide)
    exact (helement.raw hbreak).congr fun k => by simp [hgiven]
  next hgiven => exact closesTags_nil.congr fun k => by simp [hgiven]

/-- A closing tag is found in the view exactly when something that is rendered closes it. -/
theorem occursIn_viewBody (hnodes : ∀ n ∈ c.nodes, n.IsClear) (hcss : Lacks isOpening c.css.display)
    {body : ViewBody} (h : viewBody c = .ok body) (name : Text) :
    occursIn (Import.closingTag name) body.text = true ↔ ClosesInView c (kebab name) := by
  obtain ⟨block, hblock, h⟩ := bind_eq_ok.mp h
  obtain rfl := Except.ok.inj h
  have hsep : Lacks isOpening (ofString "\n  ") := isAngular_isOpening.lacks (by decide)
  have hall := (closesTags_renderChildren hsep hnodes hblock).append (closesTags_tailPieces hcss)
  have hname : TagFree (kebab name) := (isTagName_kebabFrom _ _).tagFree
  have htext : block.text ++ viewTail c = piecesText (block.pieces ++ tailPieces c) := by
    rw [piecesText_append, piecesText_tailPieces]
    rfl
  rw [htext]
  refine (occursIn_piecesText hname hall.clear).trans ((hall.closing _).trans ?_)
  constructor
  · rintro (⟨n, hn, h | ⟨htag, h⟩ | ⟨htag, h⟩⟩ | hstyle)
    · exact .inl ⟨n, hn, h⟩
    · exact .inr (.inl ⟨htag, n, hn, h⟩)
    · exact .inr (.inr (.inl ⟨htag, n, hn, h⟩))
    · exact .inr (.inr (.inr hstyle))
  · rintro (⟨n, hn, h⟩ | ⟨htag, n, hn, h⟩ | ⟨htag, n, hn, h⟩ | hstyle)
    · exact .inl ⟨n, hn, .inl h⟩
    · exact .inl ⟨n, hn, .inr (.inl ⟨htag, h⟩)⟩
    · exact .inl ⟨n, hn, .inr (.inr ⟨htag, h⟩)⟩
    · exact .inr hstyle

end View

section Names

open Snippet

/-- A name in which an ASCII capital comes first. -/
def IsCapitalized (name : Text) : Prop :=
  IsName name ∧ ∃ c cs, name = .char c :: cs ∧ c.isUpper = true

theorem lowerTags : ∀ tag ∈ htmlTags ++ voidTags,
    ∀ c ∈ tag.head?, c.is Char.isUpper = false := by decide +kernel

variable {name : Text}

theorem IsCapitalized.notMem (h : IsCapitalized name) : name ∉ htmlTags ++ voidTags := by
  obtain ⟨_, c, cs, rfl, hc⟩ := h
  intro hmem
  have hlower := lowerTags _ hmem (.char c) rfl
  rw [CodePoint.is, hc] at hlower
  cases hlower

theorem trim_name (h : IsName name) : trim name = name := by
  have hblank : ∀ s : Text, (∀ c ∈ s, continuesName c = true) → s.dropWhile (·.is isBlank) = s := by
    intro s hs
    cases s with
    | nil => rfl
    | cons c cs =>
      exact List.dropWhile_cons_of_neg (by simp [is_isBlank_of_isMember (hs c List.mem_cons_self)])
  have hreverse : ∀ c ∈ name.reverse, continuesName c = true :=
    fun c hc => h.2 c (List.mem_reverse.mp hc)
  rw [trim, trimStart, hblank name h.2, trimEnd, hblank _ hreverse, List.reverse_reverse]

/-- The two ways to spell the tag of a component agree: in the markup and in the search for it. -/
theorem IsCapitalized.elementSelector_eq (h : IsCapitalized name) :
    elementSelector name = kebab name := by
  have hhtml : htmlTags.contains name = false := by
    simpa using fun hmem => h.notMem (List.mem_append_left _ hmem)
  have hhyphen : occursIn "-" name = false := occursIn_character fun hmem =>
    absurd (h.1.2 _ hmem) (by decide)
  rw [elementSelector, trim_name h.1, hhtml, hhyphen]
  rfl

theorem joined_name (h : IsName name) : Json.joined name = name := by
  have hwell : ∀ s : Text, (∀ c ∈ s, continuesName c = true) → Json.WellPaired s := by
    intro s hs
    induction s with
    | nil => exact List.IsChain.nil
    | cons c cs ih =>
      rw [List.forall_mem_cons] at hs
      have hchar : c.isHalf = false := by
        cases c with
        | char c => rfl
        | half n => cases hs.1
      exact (ih hs.2).cons fun hhigh => absurd hhigh (by simp [(Json.not_isHalf hchar).1])
  exact Json.joined_of_wellPaired (hwell name h.2)

end Names

section Elements

open Import

variable {o : CompileOptions} {c : Component}

theorem codeStatements_eq_map {records : List ImportRecord}
    (hrecords : ∀ r ∈ records, r.statement ≠ []) (view : Text) :
    codeStatements view (records.map .record) =
      (records.filter fun r => !r.isCustomElement view).map ImportRecord.statement := by
  induction records with
  | nil => rfl
  | cons r rest ih =>
    rw [List.forall_mem_cons] at hrecords
    have hempty : r.statement.isEmpty = false := List.isEmpty_eq_false_iff.mpr hrecords.1
    rw [List.map_cons, codeStatements_record, hempty, ih hrecords.2]
    cases hcode : r.isCustomElement view with
    | true => rw [List.filter_cons_of_neg (by simp [hcode])]; rfl
    | false => rw [List.filter_cons_of_pos (by simp [hcode])]; rfl

theorem isClear_lowered {m : Members} {c' : Component} (hc : c.HasTexts) (houtputs : m.outputVars = [])
    (hplain : ∀ f ∈ c.refFields m.domRefs, CodePoint.char '\\' ∉ f.1)
    (hnodes : ∀ n ∈ c.nodes, n.IsClear) (h : lowered .empty m c = .ok c') :
    ∀ n ∈ c'.nodes, n.IsClear := by
  intro n' hn'
  obtain ⟨n, hn, hname, hlacks⟩ :=
    exists_lacks_lowered isAngular_isOpening hc houtputs hplain h n' hn'
  exact ⟨by rw [hname]; exact (hnodes n hn).name, hlacks (hnodes n hn).texts⟩

/-- For a component that is rendered as an element, the view closes the tag by which its import is
    looked for. -/
theorem closesInView_of_rendered {name : Text} (hname : IsCapitalized name) {n : Node}
    (hn : n ∈ renderedChildren c.children) (hrule : blockRule n = .ok .element)
    (hnode : n.name = .str name) : ClosesInView c (kebab name) := by
  have hvoid : Node.isVoid n = false := by
    have hnot : voidTags.contains name = false := by
      simpa using fun hmem => hname.notMem (List.mem_append_right _ hmem)
    rw [Node.isVoid, hnode]
    exact hnot
  exact .inl ⟨n, hn, hrule, hvoid, name, hnode, hname.elementSelector_eq.symm⟩

/-- When no text opens a tag and no ref is named with a backslash, the search for closing tags is
    exact: an import is found to be an element exactly when an element of its selector is rendered,
    or a template, a slot or the styles that its name coincides with. The component that is rendered
    under the name of an import is imported by the view, not by the code, and its name is no field
    of the class. -/
theorem closing_tags_exact (ho : IsPlain o) (hgiven : o.suppressed.isGiven = false) (hc : c.HasTexts)
    (hplain : ∀ domRefs, c.domRefs = .ok domRefs →
      ∀ f ∈ c.refFields domRefs, CodePoint.char '\\' ∉ f.1)
    (hnodes : ∀ n ∈ c.nodes, n.IsClear) (hcss : Lacks isOpening c.css.display) :
    (∀ m c' body, Members.collect o c = .ok m → lowered .empty m c = .ok c' →
      viewBody c' = .ok body → ∀ name,
        occursIn (closingTag name) body.text = true ↔ ClosesInView c' (kebab name)) ∧
    (ResolvesTexts c → ∀ a, build o .empty c = .ok a → ∃ m c' body,
      Members.collect o c = .ok m ∧ lowered .empty m c = .ok c' ∧ viewBody c' = .ok body ∧
      a.parts.view = assembleView o.targetVersion
        (templateImports o.targetVersion.importKeyword a.classification.customElements) body.text ∧
      a.parts.codeImports = a.classification.codeImports.map ImportRecord.statement ∧
      ∀ name, IsCapitalized name →
        (∃ n ∈ renderedChildren c'.children, blockRule n = .ok .element ∧ n.name = .str name) →
        ∀ d ∈ c.imports.filter (isKept o.preserveImports.isGiven), ∀ t,
          Describes o.preserveFileExtensions.isGiven d t → t.name = name →
          t.readBack ∈ a.classification.customElements ∧
            t.readBack ∉ a.classification.codeImports ∧ .text name ∉ a.classification.classFields) ∧
    (c.IsTyped → c.validate = .ok () → ∃ compiled a log, compile o c = .ok compiled ∧
      build o .empty c = .ok a ∧ finish o .empty a.parts.text = .ok (compiled.text, log)) := by
  have hview : ∀ m c' body, Members.collect o c = .ok m → lowered .empty m c = .ok c' →
      viewBody c' = .ok body → ∀ name,
        occursIn (closingTag name) body.text = true ↔ ClosesInView c' (kebab name) := by
    intro m c' body hcollect hlowered hbody name
    obtain ⟨props, domRefs, _, hdomRefs, rfl⟩ := (collect_eq_ok ho).mp hcollect
    refine occursIn_viewBody ?_ ?_ hbody name
    · exact isClear_lowered hc rfl (hplain domRefs hdomRefs) hnodes hlowered
    · rw [lowered_rest hlowered]
      exact hcss
  refine ⟨hview, fun hresolves a hbuild => ?_, fun htyped hvalid => ?_⟩
  · obtain ⟨m, _, parameters, outs, c', hcollect, _, _, _, hlowered, hassemble⟩ :=
      build_eq_ok.mp hbuild
    have himports : c'.imports = c.imports := by rw [lowered_rest hlowered]
    obtain ⟨body, records, extra, hbody, hrecords, hfound, hcode, hparts⟩ :=
      records_of_assemble ho (resolvesTexts_lowered hresolves hlowered) hassemble
    obtain ⟨helements, hothers, hfields⟩ := classify_eq_ok hfound
    rw [himports] at hrecords
    have hstatements : ∀ r ∈ records.map TextRecord.readBack, r.statement ≠ [] := by
      intro r hr
      obtain ⟨t, ht, rfl⟩ := List.mem_map.mp hr
      obtain ⟨d, _, hd⟩ := exists_left hrecords t ht
      exact Json.joined_ne_nil (statement_ne_nil hd.statement)
    have hmap := codeStatements_eq_map hstatements body.text
    rw [List.map_map, ← hothers] at hmap
    refine ⟨m, c', body, hcollect, hlowered, hbody, hparts, hcode.trans hmap, ?_⟩
    rintro name hname ⟨n, hn, hrule, hnode⟩ d hd t ht rfl
    obtain ⟨t', hmem, ht'⟩ := exists_right hrecords d hd
    obtain rfl := ht.unique ht'
    have hread : t.readBack.name = t.name := joined_name hname.1
    have hcustom : t.readBack.isCustomElement body.text = true := by
      rw [ImportRecord.isCustomElement, hread]
      exact (hview m c' body hcollect hlowered hbody t.name).mpr
        (closesInView_of_rendered hname hn hrule hnode)
    have hclassified : t.readBack ∈ a.classification.customElements := by
      rw [helements]
      exact List.mem_filter.mpr ⟨List.mem_map_of_mem hmem, hcustom⟩
    refine ⟨hclassified, fun hcode => ?_, fun hfield => hfields _ hfield ?_⟩
    · rw [hothers, List.mem_filter, hcustom] at hcode
      exact absurd hcode.2 (by decide)
    · refine List.mem_flatMap.mpr ⟨_, hclassified, ?_⟩
      rw [hread]
      exact List.mem_cons_self
  · obtain ⟨compiled, hcompiled⟩ := exists_compile_of_plainNames ho htyped hvalid hplain
    obtain ⟨_, a, log, hbuild, hfinish⟩ := compile_eq_ok ho.plugins hgiven hcompiled
    exact ⟨compiled, a, log, hcompiled, hbuild, hfinish⟩

theorem shop_isClear : ∀ n ∈ shop.nodes, n.IsClear :=
  List.forall_mem_singleton.mpr ⟨⟨_, _, rfl, by decide, by decide⟩,
    by rintro _ ⟨⟩, by rintro _ ⟨⟩, .inl rfl⟩

theorem closing_tags_exact_shop : ∃ compiled a body, compile (formattedBy none) shop = .ok compiled ∧
    build (formattedBy none) .empty shop = .ok a ∧ viewBody shop = .ok body ∧
    (∀ name, occursIn (closingTag name) body.text = true ↔ ClosesInView shop (kebab name)) ∧
    (∃ r ∈ a.classification.customElements, r.name = "Button") ∧
    .text "Button" ∉ a.classification.classFields := by
  have hname : IsCapitalized "Button" := ⟨⟨by decide, by decide⟩, _, _, rfl, by decide⟩
  obtain ⟨hview, hresolved, hcompiles⟩ := closing_tags_exact (isPlain_formattedBy none) rfl
    shop_isTyped.code shop_plain shop_isClear (isAngular_isOpening.lacks (by decide))
  obtain ⟨compiled, a, _, hcompiled, hbuild, _⟩ := hcompiles shop_isTyped rfl
  obtain ⟨m, c', body, hcollect, hlowered, hbody, _, _, helements⟩ :=
    hresolved shop_resolves a hbuild
  have hmembers : Members.collect (formattedBy none) shop = .ok ⟨[], [], [], [], []⟩ := rfl
  obtain rfl := Except.ok.inj (hmembers.symm.trans hcollect)
  have hsame : lowered .empty ⟨[], [], [], [], []⟩ shop = .ok shop := rfl
  obtain rfl := Except.ok.inj (hsame.symm.trans hlowered)
  have hdescribes : Describes false ⟨.str "./button.lite", importMap [("Button", "default")]⟩
      ⟨"Button", "./button", [], "import Button from './button';", [("Button", "default")]⟩ :=
    ⟨rfl, rfl, rfl, rfl, rfl⟩
  have hbutton := helements "Button" hname ⟨leaf "Button", List.mem_singleton_self _, rfl, rfl⟩ _
    (List.mem_filter.mpr ⟨List.mem_cons_self, rfl⟩) _ hdescribes rfl
  exact ⟨compiled, a, body, hcompiled, hbuild, hbody, hview _ _ body hcollect hlowered hbody,
    ⟨_, hbutton.1, rfl⟩, hbutton.2.2⟩

/-- A title that divides the current value of a ref. The name of the ref is, as a template, the octal
    escape for the character that opens a tag. -/
def escapedTitle : Text := "\\074.current/my-button>"

/-- A paragraph with that title, once the code of the title has become the given one. -/
def titled (code : Text) : Component where
  name := .str "Form"
  children := [⟨.str "p", [],
    [("title", some ⟨.str code, .str escapedTitle, .normal, .null⟩)], [], .empty, none, []⟩]
  state := []
  props := []
  propsTypeRef := .null
  defaultProps := []
  refs := [("\\074", ⟨.null, .null⟩)]
  hooks := ⟨none, none, [], none⟩
  context := ⟨[], []⟩
  imports := [⟨.str "./my-button", importMap [("MyButton", "default")]⟩]
  exports := []
  metadata := []
  types := []
  css := .null

theorem titled_isTyped (code : Text) : (titled code).IsTyped where
  code := {
    hooks := by rintro _ ⟨⟩
    deps := by rintro _ ⟨⟩
    state := by rintro _ ⟨⟩
    refs := List.forall_mem_singleton.mpr (.inl rfl)
    nodes := List.forall_mem_singleton.mpr ⟨⟨_, rfl⟩, by rintro _ ⟨⟩,
      List.forall_mem_singleton.mpr ⟨_, rfl, ⟨_, rfl⟩, .inr ⟨_, rfl⟩, .inl rfl⟩⟩ }
  writes := by rintro _ ⟨⟩
  props := by rintro _ ⟨⟩
  propsType := .inl rfl
  refs := List.forall_mem_singleton.mpr (by decide)
  channel := by
    refine ⟨List.forall_mem_singleton.mpr ⟨_, _, rfl, rfl, by unfold IsClear; decide, ?_⟩,
      by rintro _ ⟨⟩⟩
    exact List.forall_mem_singleton.mpr
      ⟨by decide, by unfold IsClear; decide, by unfold IsClear; decide⟩
  aurelia := by rintro _ ⟨⟩

theorem relocateRefs_escapedTitle :
    Snippet.relocateRefs [("\\074", "_\\074")] "" (.str escapedTitle) = .ok (.str "</my-button>") := by
  have hdropped : Snippet.dropCurrent "\\074" (.str escapedTitle) = .ok "</my-button>" := rfl
  have hplain : ∀ c ∈ ofString "</my-button>", Snippet.isNotQuote c = true := by decide
  have hreplaced : Snippet.replaceOne ("" ++ "_\\074") "\\074" "</my-button>" = "</my-button>" := by
    rw [Snippet.replaceOne, Snippet.mapPlain_of_noQuote (by decide) hplain]
    decide
  change (Snippet.relocateRef "" "\\074" "_\\074" _ >>= _) = _
  rw [Snippet.relocateRef, hdropped, ok_bind, if_neg (by decide), hreplaced]
  rfl

theorem bindingCode_escapedTitle :
    Members.bindingCode ⟨[], [], [], [], []⟩ (.str "</my-button>") = .ok (.str "</my-button>") := by
  have hplain : ∀ c ∈ ofString "</my-button>", Snippet.isNotQuote c = true := by decide
  have hstripped : Snippet.strip (.before "") "</my-button>" = "</my-button>" := by
    rw [Snippet.strip, Snippet.mapPlain_of_noQuote (by decide) hplain]
    decide
  change Except.ok (Json.str (encodeQuotes (Snippet.strip (.before "") "</my-button>"))) = _
  rw [hstripped]
  rfl

theorem lowered_titled :
    lowered .empty ⟨[], [], [], [], []⟩ (titled escapedTitle) = .ok (titled "</my-button>") := by
  refine lowered_eq_ok.mpr ⟨titled "</my-button>", ?_, ?_⟩
  · rw [mapRefs_toAttempt _ (by decide)]
    change Visitor.visit (refSteps [("\\074", "_\\074")] instanceLead) _ = _
    simp only [titled, Visitor.visit, Visitor.visitNodes, Visitor.visitNode, Visitor.visitBranch,
      Visitor.mapEntries, refSteps, onBindingCode, relocateRefs_escapedTitle]
    rfl
  · simp only [titled, Visitor.visit, Visitor.visitNodes, Visitor.visitNode, Visitor.visitBranch,
      Visitor.mapEntries, CodeProcessor.steps, Members.processor, onBindingCode, bindingCode_escapedTitle]
    rfl

/-- The relocation of the ref writes the character that its name is an escape for, and with it the
    closing tag of an element that is not there. -/
theorem escaped_ref_closes_tag :
    (titled escapedTitle).validate = .ok () ∧ (∀ n ∈ (titled escapedTitle).nodes, n.IsClear) ∧
      Lacks isOpening (titled escapedTitle).css.display ∧
      (∃ compiled, compile (formattedBy none) (titled escapedTitle) = .ok compiled) ∧
      ∃ m c' body, Members.collect (formattedBy none) (titled escapedTitle) = .ok m ∧
        lowered .empty m (titled escapedTitle) = .ok c' ∧ viewBody c' = .ok body ∧
        occursIn (closingTag "MyButton") body.text = true ∧ ¬ ClosesInView c' (kebab "MyButton") := by
  have hbody : viewBody (titled "</my-button>") =
      .ok ⟨"<p title.bind=\"</my-button>\">\n</p>", []⟩ := rfl
  have hrelocates : (titled escapedTitle).RefsRelocate [] ∧ (titled escapedTitle).LoopsStay [] := by
    refine ⟨fun _ => List.forall_mem_singleton.mpr ⟨_, rfl⟩, ?_⟩
    exact List.forall_mem_singleton.mpr fun hloop => absurd hloop (by decide)
  obtain ⟨hcompiles, _⟩ := (compiles_iff_lowered (isPlain_formattedBy none)
    (titled_isTyped _) rfl rfl).mpr hrelocates
  refine ⟨rfl, ?_, isAngular_isOpening.lacks (by decide), hcompiles, _, _, _, rfl,
    lowered_titled, hbody, by decide, ?_⟩
  · refine List.forall_mem_singleton.mpr ⟨⟨_, _, rfl, by decide, by decide⟩, by rintro _ ⟨⟩,
      List.forall_mem_singleton.mpr ⟨?_, _, rfl, ⟨_, rfl, ?_⟩, .inr ⟨_, rfl, ?_⟩⟩, .inl rfl⟩
    all_goals
      unfold Markup.Lacks
      decide
  · rintro (⟨n, hn, _, _, name, hname, htag⟩ | ⟨htag, _⟩ | ⟨htag, _⟩ | ⟨htag, _⟩)
    · obtain rfl := List.mem_singleton.mp hn
      obtain rfl := Json.str.inj hname
      exact absurd htag (by decide)
    all_goals exact absurd htag (by decide)

end Elements

end Module
end ElementCompiler
