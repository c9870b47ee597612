namespace StaticSite.Xml

inductive SyntaxError where
  | unknownMarkup
  | unclosedInstruction
  | unclosedDeclaration
  | unclosedComment
  | unclosedDoctype
  | unclosedCdata
  | unclosedTag
  | unclosedValue (quote : Char)
  deriving DecidableEq, Repr

def SyntaxError.message : SyntaxError → String
  | .unknownMarkup => "unknown or missed symbol in markup"
  | .unclosedInstruction => "processing instruction not closed: `?>` not found before end of input"
  | .unclosedDeclaration => "XML declaration not closed: `?>` not found before end of input"
  | .unclosedComment => "comment not closed: `-->` not found before end of input"
  | .unclosedDoctype => "DOCTYPE not closed: `>` not found before end of input"
  | .unclosedCdata => "CDATA not closed: `]]>` not found before end of input"
  | .unclosedTag => "tag not closed: `>` not found before end of input"
  | .unclosedValue quote =>
    "attribute value not closed: `" ++ quote.toString ++ "` not found before end of input"

inductive FormError where
  | mismatchedEnd (opened closed : List Char)
  | unmatchedEnd (name : List Char)
  | missingDoctypeName
  | unclosedReference
  deriving DecidableEq, Repr

def FormError.message : FormError → String
  | .mismatchedEnd opened closed =>
    "expected `</" ++ String.ofList opened ++ ">`, but `</" ++ String.ofList closed ++ ">` was found"
  | .unmatchedEnd name =>
    "close tag `</" ++ String.ofList name ++ ">` does not match any open tag"
  | .missingDoctypeName =>
    "`<!DOCTYPE>` declaration does not contain a name of a document type"
  | .unclosedReference =>
    "entity or character reference not closed: `;` not found before end of input"

inductive CodeError where
  | signed
  | empty
  | badDigit
  | tooLarge
  | zero
  | notScalar (code : Nat)
  deriving DecidableEq, Repr

def CodeError.message : CodeError → String
  | .signed => "unexpected number sign"
  | .empty => "cannot parse integer from empty string"
  | .badDigit => "invalid digit found in string"
  | .tooLarge => "number too large to fit in target type"
  | .zero => "0x0 character is not permitted in XML"
  | .notScalar code => "`" ++ toString code ++ "` is not a valid codepoint"

inductive ReferenceError where
  | unknown (start stop : Nat) (name : List Char)
  | unterminated (start stop : Nat)
  | badCode (cause : CodeError)
  deriving DecidableEq, Repr

def ReferenceError.message : ReferenceError → String
  | .unknown start stop name =>
    "at " ++ toString start ++ ".." ++ toString stop ++ ": unrecognized entity `" ++
      String.ofList name ++ "`"
  | .unterminated start stop =>
    "Error while escaping character at range " ++ toString start ++ ".." ++ toString stop ++
      ": Cannot find ';' after '&'"
  | .badCode cause => "invalid character reference: " ++ cause.message

def xmlNamespace : List Char := "http://www.w3.org/XML/1998/namespace".toList

def xmlnsNamespace : List Char := "http://www.w3.org/2000/xmlns/".toList

inductive BindingError where
  | rebindsXml (uri : List Char)
  | rebindsXmlns (uri : List Char)
  | otherPrefixForXml (name : List Char)
  | otherPrefixForXmlns (name : List Char)
  deriving DecidableEq, Repr

def shownByte (b : UInt8) : String :=
  if b = 34 then "\\\""
  else if 32 ≤ b ∧ b ≤ 126 then (Char.ofNat b.toNat).toString
  else "0x" ++ String.ofList ((Nat.toDigits 16 b.toNat).map Char.toUpper)

def shown (cs : List Char) : String :=
  "\"" ++ String.join ((String.ofList cs).toUTF8.toList.map shownByte) ++ "\""

def BindingError.message : BindingError → String
  | .rebindsXml uri => "the namespace prefix 'xml' cannot be bound to '" ++ shown uri ++ "'"
  | .rebindsXmlns uri => "the namespace prefix 'xmlns' cannot be bound to '" ++ shown uri ++ "'"
  | .otherPrefixForXml name =>
    "the namespace prefix '" ++ shown name ++ "' cannot be bound to '" ++
      String.ofList xmlNamespace ++ "'"
  | .otherPrefixForXmlns name =>
    "the namespace prefix '" ++ shown name ++ "' cannot be bound to '" ++
      String.ofList xmlnsNamespace ++ "'"

inductive ReadError where
  | syntaxError (cause : SyntaxError)
  | illFormed (cause : FormError)
  | reference (cause : ReferenceError)
  | binding (cause : BindingError)
  deriving DecidableEq, Repr

def ReadError.message : ReadError → String
  | .syntaxError cause => "syntax error: " ++ cause.message
  | .illFormed cause => "ill-formed document: " ++ cause.message
  | .reference cause => cause.message
  | .binding cause => cause.message

/-- Why the attributes of a tag cannot be read; positions count bytes from the tag's name. -/
inductive AttributeError where
  | missingEquals (position : Nat)
  | missingValue (position : Nat)
  | unquotedValue (position : Nat)
  | unclosedQuote (position : Nat) (quote : Char)
  | repeated (position first : Nat)
  deriving DecidableEq, Repr

def AttributeError.message : AttributeError → String
  | .missingEquals position =>
    "position " ++ toString position ++ ": attribute key must be directly followed by `=` or space"
  | .missingValue position =>
    "position " ++ toString position ++ ": `=` must be followed by an attribute value"
  | .unquotedValue position =>
    "position " ++ toString position ++ ": attribute value must be enclosed in `\"` or `'`"
  | .unclosedQuote position quote =>
    "position " ++ toString position ++ ": missing closing quote `" ++ quote.toString ++
      "` in attribute value"
  | .repeated position first =>
    "position " ++ toString position ++ ": duplicated attribute, previous declaration at position " ++
      toString first

end StaticSite.Xml
