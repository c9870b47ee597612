import StaticSite.Text.Search

namespace StaticSite.Xml

def isBlank (c : Char) : Bool :=
  c == ' ' || c == '\t' || c == '\r' || c == '\n'

/-- What stands between `<` and `>` of an opening tag: a name that ends at the first blank, and the
text of the attributes, which begins with that blank if it is not empty. -/
structure Tag where
  name : List Char
  attributeText : List Char
  deriving DecidableEq, Repr

def Tag.content (t : Tag) : List Char :=
  t.name ++ t.attributeText

def Tag.ofContent (cs : List Char) : Tag :=
  ⟨cs.takeWhile (!isBlank ·), cs.dropWhile (!isBlank ·)⟩

@[simp]
theorem Tag.content_ofContent (cs : List Char) : (Tag.ofContent cs).content = cs :=
  List.takeWhile_append_dropWhile

def localName (name : List Char) : List Char :=
  match name.dropWhile (· != ':') with
  | [] => name
  | _ :: rest => rest

def namePrefix? (name : List Char) : Option (List Char) :=
  match name.dropWhile (· != ':') with
  | [] => none
  | _ :: _ => some (name.takeWhile (· != ':'))

inductive Event where
  | opening (tag : Tag)
  | closing (name : List Char)
  | empty (tag : Tag)
  | text (content : List Char)
  | reference (name : List Char)
  | cdata (content : List Char)
  | comment (content : List Char)
  | declaration (content : List Char)
  | instruction (content : List Char)
  | doctype (content : List Char)
  deriving DecidableEq, Repr

def Event.render : Event → List Char
  | .opening tag => '<' :: (tag.content ++ ['>'])
  | .closing name => '<' :: '/' :: (name ++ ['>'])
  | .empty tag => '<' :: (tag.content ++ ['/', '>'])
  | .text content => content
  | .reference name => '&' :: (name ++ [';'])
  | .cdata content => "<![CDATA[".toList ++ content ++ "]]>".toList
  | .comment content => "<!--".toList ++ content ++ "-->".toList
  | .declaration content => "<?".toList ++ content ++ "?>".toList
  | .instruction content => "<?".toList ++ content ++ "?>".toList
  | .doctype content => "<!DOCTYPE ".toList ++ content ++ ['>']

def render (events : List Event) : List Char :=
  events.flatMap Event.render

@[simp]
theorem render_nil : render [] = [] := rfl

@[simp]
theorem render_cons (e : Event) (es : List Event) : render (e :: es) = e.render ++ render es := by
  simp [render]

@[simp]
theorem render_append (es fs : List Event) : render (es ++ fs) = render es ++ render fs := by
  simp [render]

end StaticSite.Xml
