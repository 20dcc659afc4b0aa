/-!
The classes of characters that markup is made of. A null character belongs to none of them.
-/

set_option autoImplicit false

namespace StyleMigration.Markup

/-- The characters that may stand between the tokens of a tag. -/
def isSpace (c : Char) : Bool :=
  c == ' ' || (0x09 ≤ c.toNat && c.toNat ≤ 0x0d)

def isAttributeValueChar (c : Char) : Bool :=
  !isSpace c && c != '<' && c != '>' && c != '"' && c != '\'' && c != '=' && c != '\x00'

def isAttributeNameChar (c : Char) : Bool :=
  isAttributeValueChar c && c != '/'

def isTextChar (c : Char) : Bool :=
  c != '<' && c != '>' && c != '&' && c != '\x00'

/-- The characters of an element's name. -/
def isTagChar (c : Char) : Bool :=
  c.isAlphanum || c == '-' || c == ':'

def isHexDigit (c : Char) : Bool :=
  c.isDigit || ('a' ≤ c && c ≤ 'f') || ('A' ≤ c && c ≤ 'F')

end StyleMigration.Markup
