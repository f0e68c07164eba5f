import ElementCompiler.Decimal.Double
import ElementCompiler.Text.Basic

set_option autoImplicit false

/-!
Keys of objects. An object that is read has texts for keys, but one that is given as a list of pairs
may have any value that is no list and no object. Keys that are equal as numbers are one key, and a
number that is none is one key with itself.
-/

namespace ElementCompiler

inductive Key where
  | null
  | bool (b : Bool)
  | int (n : Int)
  | float (x : Float)
  | text (s : Text)
  deriving Inhabited

namespace Key

instance : Coe Text Key := ⟨.text⟩

/-- What decides whether two keys are one. -/
inductive Identity where
  | null
  | whole (n : Int)
  /-- A double that is no whole number, by its bits; those of what is no number are left out. -/
  | double (bits : Option Nat)
  | text (s : Text)
  deriving DecidableEq, Repr

def identity : Key → Identity
  | .null => .null
  | .bool b => .whole (if b then 1 else 0)
  | .int n => .whole n
  | .float x =>
    match Double.whole? x with
    | some n => .whole n
    | none => .double (if Double.isNoNumber x then none else some (Double.bits x))
  | .text s => .text s

instance : BEq Key := ⟨fun j k => j.identity == k.identity⟩

instance : EquivBEq Key where
  symm h := BEq.symm (α := Identity) h
  trans h h' := BEq.trans (α := Identity) h h'
  rfl := BEq.rfl (α := Identity)

/-- The text that a key is. -/
def text? : Key → Option Text
  | .text s => some s
  | _ => none

@[simp] theorem text_beq_text (s t : Text) : ((Key.text s == Key.text t) = true) = (s = t) := by
  simp [BEq.beq, identity]

/-- No other key is one with a text. -/
theorem eq_text_of_beq {k : Key} {s : Text} (h : (k == text s) = true) : k = .text s := by
  have hidentity : k.identity = .text s := beq_iff_eq.mp h
  cases k with
  | text t => exact congrArg text (Identity.text.inj hidentity)
  | null => cases hidentity
  | bool b => cases hidentity
  | int n => cases hidentity
  | float x =>
    rw [identity] at hidentity
    cases hwhole : Double.whole? x with
    | none => simp [hwhole] at hidentity
    | some n => simp [hwhole] at hidentity

end Key
end ElementCompiler
