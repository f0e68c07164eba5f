import ElementCompiler.Text.Blank
import ElementCompiler.Text.Kebab
import ElementCompiler.Text.Literal

set_option autoImplicit false

/-!
Tag names and the keys that name slots.
-/

namespace ElementCompiler.Markup

open Text

def htmlTags : List Text := List.map ofString [
  "a", "abbr", "address", "area", "article", "aside", "audio", "b", "base", "bdi", "bdo",
  "blockquote", "body", "br", "button", "canvas", "caption", "cite", "code", "col", "colgroup",
  "data", "datalist", "dd", "del", "details", "dfn", "dialog", "div", "dl", "dt", "em", "embed",
  "fieldset", "figcaption", "figure", "footer", "form", "h1", "h2", "h3", "h4", "h5", "h6", "head",
  "header", "hgroup", "hr", "html", "i", "iframe", "img", "input", "ins", "kbd", "label", "legend",
  "li", "link", "main", "map", "mark", "menu", "meta", "meter", "nav", "noscript", "object", "ol",
  "optgroup", "option", "output", "p", "param", "picture", "pre", "progress", "q", "rp", "rt",
  "ruby", "s", "samp", "script", "section", "select", "slot", "small", "source", "span", "strong",
  "style", "sub", "summary", "sup", "table", "tbody", "td", "template", "textarea", "tfoot", "th",
  "thead", "time", "title", "tr", "track", "u", "ul", "var", "video", "wbr", "svg", "path",
  "circle", "rect", "line", "polyline", "polygon", "g", "defs", "use", "text"]

/-- Tags that stand alone. -/
def voidTags : List Text := [
  "area", "base", "br", "col", "embed", "hr", "img", "input", "link", "meta", "param", "source",
  "track", "wbr"]

/-- HTML tags and names with a hyphen stay as they are, other names are put in kebab case. -/
def elementSelector (name : Text) : Text :=
  let stripped := trim name
  if htmlTags.contains stripped || occursIn "-" stripped then stripped else kebab stripped

/-- A character that may follow `slot` in the key of a slot. -/
def beginsSlotName (c : Char) : Bool := c.isUpper || c.isDigit || c == '_' || c == '-'

/-- What follows `slot` in a key that names a slot. -/
def slotName? (key : Text) : Option (Text) :=
  match after? "slot" key with
  | some (c :: cs) => if c.is beginsSlotName then some (c :: cs) else none
  | _ => none

def isSlotKey (key : Text) : Bool := (slotName? key).isSome

def slotName (key : Text) : Text := (slotName? key).getD key

def slotSelector (key : Text) : Text := kebab (slotName key)

/-- Double quotes written so that they can stand inside an attribute value. -/
def encodeQuotes (s : Text) : Text := replace "\"" "&quot;" s

end ElementCompiler.Markup
