/-
# `Py.Xml` — element trees

What `xml.etree.ElementTree.parse` returns: elements with a tag, attributes and
child elements (the text between them is left out).  `iter` walks the tree in
document order, the element itself first.
-/
import KdevopsNg.Py.Dict
import KdevopsNg.Py.Text

namespace Py

/-- An element. -/
inductive Element where
  | mk (tag : String) (attrib : Dict String) (children : List Element)

namespace Element

/-- `e.tag`. -/
def tag : Element → String
  | mk t _ _ => t

/-- `e.get(k)`. -/
def get? : Element → String → Option String
  | mk _ a _, k => Dict.get? a k

/-- `list(e)`. -/
def children : Element → List Element
  | mk _ _ cs => cs

mutual
/-- `list(e.iter())`. -/
def iter : Element → List Element
  | mk t a cs => mk t a cs :: iterAll cs
/-- The elements below a list of siblings. -/
def iterAll : List Element → List Element
  | [] => []
  | c :: cs => iter c ++ iterAll cs
end

/-- `e.tag.rsplit("}", 1)[-1]`: the tag without its namespace. -/
def localName (e : Element) : String :=
  String.ofList ((Text.split '}' e.tag.toList).getLastD [])

end Element

end Py
