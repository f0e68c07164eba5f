import ElementCompiler.Module.Layout
import ElementCompiler.Module.View
import ElementCompiler.Proofs.Markup.TemplateReading
import ElementCompiler.Proofs.Text.Indent

set_option autoImplicit false

/-!
The view read back from the literal that a module shows: its escape, its indentation and the tag
around it can all be undone.
-/

namespace ElementCompiler.Module

open Text Markup

variable {version : TargetVersion} {imports body : Text}

/-- The view without the template tag around it, in a version that has one. -/
def unwrapView? (version : TargetVersion) (view : Text) : Option Text :=
  if version.wrapsView then do
    let opened ← after? "<template>" view
    let inner ← after? (ofString "</template>").reverse opened.reverse
    return inner.reverse
  else some view

/-- The import tags and the body, from the view that shows them. -/
def recoverView? (version : TargetVersion) (view : Text) : Option Text :=
  (unwrapView? version (outdentRest 6 view)).map (outdentRest 2)

/-- The view in the literal, before its escape. -/
def indentedView (version : TargetVersion) (imports body : Text) : Text :=
  indentRest 6 (wrapView version (indentRest 2 (viewContent imports body)))

theorem unwrapView?_wrapView (view : Text) :
    unwrapView? version (wrapView version view) = some view := by
  unfold unwrapView? wrapView
  split
  · simp only [List.append_assoc, after?_append]
    simp
  · rfl

theorem recoverView?_indentedView :
    recoverView? version (indentedView version imports body) = some (viewContent imports body) := by
  simp [recoverView?, indentedView, outdentRest_indentRest, unwrapView?_wrapView]

theorem return_notMem_viewContent (himports : .char '\r' ∉ imports) (hbody : .char '\r' ∉ body) :
    .char '\r' ∉ viewContent imports body := by
  unfold viewContent
  split <;> simp [ofString, himports, hbody]

theorem return_notMem_indentedView (version : TargetVersion) (himports : .char '\r' ∉ imports)
    (hbody : .char '\r' ∉ body) : .char '\r' ∉ indentedView version imports body := by
  have hindent : ∀ (width : Nat) {s : Text}, .char '\r' ∉ s → .char '\r' ∉ indentRest width s :=
    fun _ _ hs h => (mem_indentRest h).elim hs (by simp)
  have hcontent := hindent 2 (return_notMem_viewContent himports hbody)
  unfold indentedView wrapView
  refine hindent 6 ?_
  split <;> simp [ofString, hcontent]

theorem readTemplateFrom_literal {t : Text} (ht : .char '\r' ∉ t) (rest : Text) :
    readTemplateFrom 0 (escapeTemplate t ++ .char '`' :: rest) = .closed t rest := by
  rw [readTemplateFrom_escapeTemplate ht (by simp), readTemplateFrom_backtick]
  simp

theorem readTemplateFrom_lines {t : Text} (ht : .char '\r' ∉ t) (rest : Text) :
    readTemplateFrom 0 (.char '\n' :: (escapeTemplate t ++ .char '\n' :: .char '`' :: rest)) =
      .closed (.char '\n' :: (t ++ [.char '\n'])) rest := by
  rw [readTemplateFrom_plain (by simp) (by simp) (by simp),
    readTemplateFrom_escapeTemplate ht (by simp),
    readTemplateFrom_plain (by simp) (by simp) (by simp), readTemplateFrom_backtick]
  simp

theorem viewContent_eq : viewContent imports body =
    (if imports = [] then [] else .char '\n' :: (imports ++ [.char '\n'])) ++
      .char '\n' :: body := by
  cases imports <;> simp [viewContent, ofString]

theorem text_eq_view (p : ModuleParts) : ∃ before rest, p.text =
    before ++ ofString "@inlineView(" ++
      (.char '`' :: .char '\n' :: (p.view ++ .char '\n' :: .char '`' :: rest)) := by
  have hopen : ofString "\")\n@inlineView(`\n" =
      ofString "\")\n" ++ ofString "@inlineView(" ++ [.char '`', .char '\n'] := by decide
  have hclose : ofString "\n`)\n" = .char '\n' :: .char '`' :: ofString ")\n" := by decide
  refine ⟨header p ++ (if p.autoinject then ofString "@autoinject\n" else []) ++
    "@customElement(\"" ++ p.elementName ++ "\")\n",
    ")\n" ++ "export class " ++ p.name ++ " \x7b\n" ++ classBody p.sections ++ "\x7d\n", ?_⟩
  simp only [ModuleParts.text, decorators, hopen, hclose, List.append_assoc, List.cons_append,
    List.nil_append]

theorem view_recovered :
    (∀ t rest : Text, .char '\r' ∉ t →
      readTemplate? (.char '`' :: (escapeTemplate t ++ .char '`' :: rest)) =
        some (.closed t rest)) ∧
    (∀ (version : TargetVersion) (imports body rest : Text),
      .char '\r' ∉ imports → .char '\r' ∉ body →
      ∃ view, readTemplate?
          (.char '`' :: (assembleView version imports body ++ .char '`' :: rest)) =
            some (.closed view rest) ∧
        recoverView? version view = some
          ((if imports = [] then [] else .char '\n' :: (imports ++ [.char '\n'])) ++
            .char '\n' :: body)) ∧
    ∀ (version : TargetVersion) (imports body : Text) (p : ModuleParts),
      .char '\r' ∉ imports → .char '\r' ∉ body → p.view = assembleView version imports body →
      ∃ before literal view rest, p.text = before ++ ofString "@inlineView(" ++ literal ∧
        readTemplate? literal = some (.closed (.char '\n' :: (view ++ [.char '\n'])) rest) ∧
        recoverView? version view = some
          ((if imports = [] then [] else .char '\n' :: (imports ++ [.char '\n'])) ++
            .char '\n' :: body) := by
  refine ⟨?_, ?_, ?_⟩
  · intro t rest ht
    exact congrArg some (readTemplateFrom_literal ht rest)
  · intro version imports body rest himports hbody
    have hview := return_notMem_indentedView version himports hbody
    refine ⟨_, congrArg some (readTemplateFrom_literal hview rest), ?_⟩
    rw [recoverView?_indentedView, viewContent_eq]
  · intro version imports body p himports hbody hp
    have hview := return_notMem_indentedView version himports hbody
    obtain ⟨before, rest, htext⟩ := text_eq_view p
    rw [hp] at htext
    refine ⟨before, _, _, rest, htext, congrArg some (readTemplateFrom_lines hview rest), ?_⟩
    rw [recoverView?_indentedView, viewContent_eq]

def priceImports : Text := "<require from=\"./tag\"></require>"

def priceBody : Text := "<p title=\"\\`\">\n\n$\x7bcost\x7d</p>"

def priceParts : ModuleParts where
  importsAggregator := false
  runtimeFeatures := ["customElement", "inlineView"]
  codeImports := []
  localExports := []
  types := []
  defaultProps := []
  autoinject := false
  elementName := "price"
  view := assembleView .v1 priceImports priceBody
  name := "Price"
  sections := []

theorem view_recovered_price :
    readTemplate? (.char '`' :: (escapeTemplate priceBody ++ .char '`' :: [])) =
        some (.closed priceBody []) ∧
      (∃ view, readTemplate?
          (.char '`' :: (assembleView .v1 priceImports priceBody ++ .char '`' :: [])) =
            some (.closed view []) ∧
        recoverView? .v1 view =
          some (.char '\n' :: (priceImports ++ [.char '\n']) ++ .char '\n' :: priceBody)) ∧
      ∃ before literal view rest, priceParts.text = before ++ ofString "@inlineView(" ++ literal ∧
        readTemplate? literal = some (.closed (.char '\n' :: (view ++ [.char '\n'])) rest) ∧
        recoverView? .v1 view =
          some (.char '\n' :: (priceImports ++ [.char '\n']) ++ .char '\n' :: priceBody) := by
  have himports : .char '\r' ∉ priceImports := by decide
  have hbody : .char '\r' ∉ priceBody := by decide
  exact ⟨view_recovered.1 priceBody [] hbody,
    view_recovered.2.1 .v1 priceImports priceBody [] himports hbody,
    view_recovered.2.2 .v1 priceImports priceBody priceParts himports hbody rfl⟩

end ElementCompiler.Module
