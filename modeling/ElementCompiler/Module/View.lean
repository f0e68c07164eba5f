import ElementCompiler.Markup.Block
import ElementCompiler.Markup.TemplateLiteral
import ElementCompiler.Target

set_option autoImplicit false

/-!
The view of a module: the markup of the component, the tags that import its custom elements,
indented and escaped for the template literal that holds them.
-/

namespace ElementCompiler.Module

open Text

def observerName : Text := "propertyObserver"

/-- What follows the markup: the observer when there are updates, and the styles. -/
def viewTail (c : Component) : Text :=
  let observer : Text :=
    if c.hooks.onUpdate.isEmpty then "" else "$\x7b" ++ observerName ++ "\x7d"
  let styles : Text := if c.css.isGiven then "\n\n<style>" ++ c.css.display ++ "</style>" else ""
  observer ++ styles

structure ViewBody where
  text : Text
  spreads : List Text

def viewBody (c : Component) : Attempt ViewBody := do
  let place : Markup.Place := ⟨.templateRoot, [], c.callableNames⟩
  let block ← Markup.renderChildren place "\n  " c.children
  return ⟨block.text ++ viewTail c, block.spreads⟩

/-- The view before its indentation and escape: the import tags on lines of their own, and the
    body. -/
def viewContent (imports body : Text) : Text :=
  let tags : Text := if imports.isEmpty then "" else "\n" ++ imports ++ "\n"
  tags ++ "\n" ++ body

def wrapView (version : TargetVersion) (view : Text) : Text :=
  if version.wrapsView then "<template>" ++ view ++ "</template>" else view

/-- The view as it stands in the template literal. -/
def assembleView (version : TargetVersion) (imports body : Text) : Text :=
  Markup.escapeTemplate
    (indentRest 6 (wrapView version (indentRest 2 (viewContent imports body))))

end ElementCompiler.Module
