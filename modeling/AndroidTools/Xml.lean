/-
The elements the tools exchange.

`ptool.py` builds `<program>` and `<patch>` elements and writes them out, `checksparse.py` copies
and edits them, `msp.py` reads their attributes by name. An element is its tag and its attributes;
the text between tags carries nothing in these documents.

The documents are the only thing that goes from one program to the next, so the model keeps the
attributes as text, and every statement across two programs goes through writing a number and
reading it back. The rules at the end say how an attribute is read after it, or another one, was
changed.
-/
import Mathlib.Tactic

set_option autoImplicit false

namespace AndroidTools

/-- A childless element: its tag, and its attributes in their order. -/
structure XmlElement where
  tag : String
  attrib : List (String × String)
  deriving Repr, DecidableEq

namespace XmlElement

/-- `element.attrib[name]`; `none` where the attribute is not there. -/
def get? (e : XmlElement) (name : String) : Option String := e.attrib.lookup name

/-- `MyDict[name]`, where `MyDict` starts from a default for every name. -/
def getD (e : XmlElement) (name default : String) : String := (e.get? name).getD default

/-- `element.attrib[name] = value`: replaced where it is, else added. -/
def set (e : XmlElement) (name value : String) : XmlElement :=
  { e with
    attrib :=
      if e.attrib.any (·.1 = name) then
        e.attrib.map fun a => if a.1 = name then (name, value) else a
      else e.attrib ++ [(name, value)] }

/-- `del element.attrib[name]`, for an attribute that is there. -/
def del (e : XmlElement) (name : String) : XmlElement :=
  { e with attrib := e.attrib.filter fun a => a.1 ≠ name }

/-! ## Reading an attribute after it or another one was changed

The laws of a record with named fields: a changed attribute is read as it was set, and the
others are read as before.
-/

variable (e : XmlElement) {name other : String} (value : String)

@[simp] theorem del_tag : (e.del name).tag = e.tag := rfl

@[simp] theorem set_tag : (e.set name value).tag = e.tag := rfl

@[simp] theorem get?_del_self : (e.del name).get? name = none := by
  rw [get?, List.lookup_eq_none_iff]
  intro a ha
  have hne := (List.mem_filter.mp ha).2
  simp only [decide_eq_true_eq] at hne
  simpa using fun h => hne h.symm

theorem get?_del_of_ne (h : name ≠ other) : (e.del name).get? other = e.get? other := by
  unfold get? del
  dsimp only
  induction e.attrib with
  | nil => rfl
  | cons a l ih =>
    by_cases ha : a.1 = name
    · have hao : (other == a.1) = false := by
        rw [ha]
        simpa using fun h' => h h'.symm
      rw [List.filter_cons_of_neg (by simp [ha]), ih, List.lookup_cons, hao]
    · rw [List.filter_cons_of_pos (by simp [ha]), List.lookup_cons, List.lookup_cons, ih]

theorem get?_set_self : (e.set name value).get? name = some value := by
  unfold get? set
  dsimp only
  by_cases hin : e.attrib.any (·.1 = name) = true
  · rw [if_pos hin]
    generalize e.attrib = attrib at hin
    induction attrib with
    | nil => simp at hin
    | cons a l ih =>
      by_cases ha : a.1 = name
      · simp [ha]
      · have hna : (name == a.1) = false := by simpa using fun h => ha h.symm
        rw [List.any_cons, decide_eq_false ha, Bool.false_or] at hin
        rw [List.map_cons, if_neg ha, List.lookup_cons, hna]
        exact ih hin
  · rw [if_neg hin, List.lookup_append]
    have hnone : e.attrib.lookup name = none := by
      rw [List.lookup_eq_none_iff]
      intro a ha
      rw [List.any_eq_true] at hin
      push Not at hin
      simpa using fun h => hin a ha (by simpa using h.symm)
    rw [hnone]
    simp

theorem get?_set_of_ne (h : name ≠ other) : (e.set name value).get? other = e.get? other := by
  unfold get? set
  dsimp only
  have hno : (other == name) = false := by simpa using fun h' => h h'.symm
  split_ifs
  · induction e.attrib with
    | nil => rfl
    | cons a l ih =>
      rw [List.map_cons]
      split_ifs with ha
      · rw [List.lookup_cons, List.lookup_cons, ha, hno, ih]
      · rw [List.lookup_cons, List.lookup_cons, ih]
  · rw [List.lookup_append, List.lookup_cons, hno]
    cases e.attrib.lookup other <;> rfl

end XmlElement

end AndroidTools
