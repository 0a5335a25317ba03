import Backtrack.Proofs.Text.Blank
import Backtrack.Text.Trim
import Backtrack.Xml.Grammar

/-!
# The language of XML documents

Which texts are XML documents, and of which trees, without reference to any way of reading them.
Comments may stand inside text and leave no trace in it. A stretch of text between two tags is one
node, without the white space at its ends, unless there is nothing in it but spaces.
-/

namespace Backtrack.Xml

open Text

def isNameStart (b : UInt8) : Bool :=
  (97 ≤ b.toNat && b.toNat ≤ 122) || (65 ≤ b.toNat && b.toNat ≤ 90) || b = Bytes.ascii '_'

def isNameByte (b : UInt8) : Bool :=
  isNameStart b || Bytes.isDigit b || b = Bytes.ascii '-' || b = Bytes.ascii ':'

inductive Name : Bytes → Prop where
  | mk {b : UInt8} {rest : Bytes} (hb : isNameStart b = true)
      (hrest : rest.all isNameByte = true) : Name (b :: rest)

/-- A text between two quotes of one kind, and the text inside. -/
inductive Quoted : Bytes → Bytes → Prop where
  | mk {quote : UInt8} {inside : Bytes}
      (hquote : quote = Bytes.ascii '\x27' ∨ quote = Bytes.ascii '\x22') (h : quote ∉ inside) :
      Quoted inside (quote :: inside ++ [quote])

inductive Attribute : Bytes × Bytes → Bytes → Prop where
  | mk {name key value token quoted : Bytes} (hname : Name name) (hkey : Spaced name key)
      (htoken : Quoted value token) (hquoted : Spaced token quoted) :
      Attribute (name, value) (key ++ Bytes.ascii '=' :: quoted)

inductive Attributes : List (Bytes × Bytes) → Bytes → Prop where
  | nil : Attributes [] []
  | cons {a : Bytes × Bytes} {as : List (Bytes × Bytes)} {t u : Bytes} (h : Attribute a t)
      (hrest : Attributes as u) : Attributes (a :: as) (t ++ u)

def tagClosing (selfClosing : Bool) : Bytes := if selfClosing then "/>" else ">"

inductive Opening : OpenTag → Bytes → Prop where
  | mk {name t blanks : Bytes} {attributes : List (Bytes × Bytes)} {selfClosing : Bool}
      (hname : Name name) (hattributes : Attributes attributes t)
      (hend : HeadNot isNameByte t) (hdistinct : (attributes.map Prod.fst).Nodup)
      (hblanks : blanks.all isSpaceByte = true) :
      Opening ⟨name, attributes, selfClosing⟩
        (Bytes.ascii '<' :: (name ++ t ++ blanks ++ tagClosing selfClosing))

inductive Closing (name : Bytes) : Bytes → Prop where
  | mk {blanks : Bytes} (hblanks : blanks.all isSpaceByte = true) :
      Closing name ("</" ++ name ++ blanks ++ ">")

inductive Comment : Bytes → Prop where
  | mk {inside : Bytes} (h : ¬ Bytes.ofString "-->" <:+: inside) :
      Comment ("<!--" ++ inside ++ "-->")

inductive Ignored : Bytes → Prop where
  | nil : Ignored []
  | space {b : UInt8} {t : Bytes} (hb : isSpaceByte b = true) (ht : Ignored t) : Ignored (b :: t)
  | comment {c t : Bytes} (hc : Comment c) (ht : Ignored t) : Ignored (c ++ t)

inductive CharacterData : List Char → Bytes → Prop where
  | last {run : Bytes} (hrun : Bytes.ascii '<' ∉ run) : CharacterData (Utf8.chars run) run
  | more {run comment t : Bytes} {cs : List Char} (hrun : Bytes.ascii '<' ∉ run)
      (hcomment : Comment comment) (ht : CharacterData cs t) :
      CharacterData (Utf8.chars run ++ cs) (run ++ comment ++ t)

/-- The node that the characters between two tags make, if there is more than spaces. -/
def textNodes (cs : List Char) : List Node :=
  if cs.all Term.isSpace then [] else [.text (Text.trim (Utf8.ofChars cs))]

inductive Content (L : Element → Bytes → Prop) : List Node → Bytes → Prop where
  | last {cs : List Char} {t : Bytes} (h : CharacterData cs t) : Content L (textNodes cs) t
  | more {cs : List Char} {e : Element} {ns : List Node} {t u v : Bytes} (h : CharacterData cs t)
      (he : L e u) (hrest : Content L ns v) :
      Content L (textNodes cs ++ e.toNode :: ns) (t ++ u ++ v)

/-- A text is an XML element, and this is the tree of it. -/
inductive Written : Element → Bytes → Prop where
  | empty {name t : Bytes} {attributes : List (Bytes × Bytes)}
      (h : Opening ⟨name, attributes, true⟩ t) : Written ⟨name, attributes, []⟩ t
  | full {name t inside u : Bytes} {attributes : List (Bytes × Bytes)} {children : List Node}
      (h : Opening ⟨name, attributes, false⟩ t) (hinside : Content Written children inside)
      (hclosing : Closing name u) : Written ⟨name, attributes, children⟩ (t ++ inside ++ u)

inductive Declaration : Bytes → Prop where
  | mk {inside : Bytes} (h : Bytes.ascii '?' ∉ inside) : Declaration ("<?xml" ++ inside ++ "?>")

/-- A text is one XML element, perhaps behind a declaration, with spaces and comments around. -/
inductive Document (e : Element) : Bytes → Prop where
  | mk {before declaration between t behind : Bytes} (hbefore : Ignored before)
      (hdeclaration : declaration = [] ∨ Declaration declaration) (hbetween : Ignored between)
      (h : Written e t) (hbehind : Ignored behind) :
      Document e (before ++ declaration ++ between ++ t ++ behind)

end Backtrack.Xml
